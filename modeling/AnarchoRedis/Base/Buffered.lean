import AnarchoRedis.Base.Stream

/-! Buffered writers.

A `Buffered` is a `bufio.Writer`: it holds up to `size` bytes, passes on what it holds
when more is written than there is room for, passes a long write on directly when it
holds nothing, and takes nothing any more after an error of the writer below. What it has
accepted is what it has passed on and what it holds; a write adds to that as many bytes
as it counts, from the front of what is written (`Buffered.write_accepts`), and so do
writes one after the other (`Buffered.deliver_accepts`). -/
namespace AnarchoRedis.Base

structure Buffered where
  size : Nat
  held : Bytes
  err : Option Err
  wr : Writer
  fits : held.length ≤ size

namespace Buffered

/-- `bufio.NewWriter`. -/
def new (wr : Writer) : Buffered := ⟨4096, [], none, wr, Nat.zero_le _⟩

/-- The error that `Flush` returns is the one it leaves. -/
def flush (b : Buffered) : Buffered :=
  if b.err ≠ none ∨ b.held = [] then b
  else
    let (n, err, wr) := b.wr.write b.held
    ⟨b.size, b.held.drop n, err, wr, (b.held.length_drop ▸ Nat.sub_le _ _).trans b.fits⟩

/-- How much can be held still. -/
def available (b : Buffered) : Nat := b.size - b.held.length

theorem length_take_available (b : Buffered) (p : Bytes) : (b.held ++ p.take b.available).length ≤ b.size := by
  have hfits := b.fits
  rw [List.length_append, List.length_take, available]
  omega

/-- The first bytes of `p` as far as there is room, and then the flush. -/
def fill (b : Buffered) (p : Bytes) : Buffered :=
  flush ⟨b.size, b.held ++ p.take b.available, b.err, b.wr, b.length_take_available p⟩

theorem flush_held {b : Buffered} (h : b.flush.err = none) : b.flush.held = [] := by
  unfold flush at h ⊢
  split
  · rename_i hstays
    rw [if_pos hstays] at h
    exact hstays.resolve_left (not_not.mpr h)
  · rename_i hgoes
    rw [if_neg hgoes] at h
    obtain ⟨taken, -, hcount, -, hall⟩ := b.wr.write_takes b.held
    show b.held.drop (b.wr.write b.held).1 = []
    rw [hcount, hall h, List.drop_length]

/-- What is left of `p` is shorter, or the buffer, which was full, is empty, or there is
an error. -/
theorem fill_decreases {b : Buffered} {p : Bytes} (herr : b.err = none) (hheld : b.held ≠ []) :
    Prod.Lex (· < ·) (Prod.Lex (· < ·) (· < ·))
      ((if (b.fill p).err = none then 1 else 0 : Nat), (p.drop b.available).length, (b.fill p).held.length)
      ((if b.err = none then 1 else 0 : Nat), p.length, b.held.length) := by
  rw [if_pos herr]
  by_cases hfill : (b.fill p).err = none
  · have hempty : (b.fill p).held = [] := flush_held hfill
    rw [if_pos hfill, hempty]
    refine .right _ ?_
    by_cases hsame : (p.drop b.available).length = p.length
    · rw [hsame]
      exact .right _ (List.length_pos_iff.mpr hheld)
    · exact .left _ _ (Nat.lt_of_le_of_ne (List.drop_sublist _ p).length_le hsame)
  · rw [if_neg hfill]
    exact .left _ _ Nat.one_pos

/-- `Write`. A round of its loop passes on directly, or fills the buffer and flushes it. -/
def write (b : Buffered) (p : Bytes) : Nat × Option Err × Buffered :=
  match _herr : b.err with
  | some err => (0, some err, b)
  | none =>
    if hlong : b.available < p.length then
      if _hheld : b.held = [] then
        let (n, err, wr) := b.wr.write p
        (n, err, {b with err := err, wr := wr})
      else
        let (n, err, b') := (b.fill p).write (p.drop b.available)
        (b.available + n, err, b')
    else (p.length, none, ⟨b.size, b.held ++ p, none, b.wr, by
      have hfits := b.fits
      rw [available] at hlong
      rw [List.length_append]
      omega⟩)
termination_by ((if b.err = none then 1 else 0 : Nat), p.length, b.held.length)
decreasing_by exact fill_decreases _herr _hheld

/-! ### What is accepted -/

/-- What has been passed on, and what is held. -/
def accepted (b : Buffered) : Bytes := b.wr.out ++ b.held

theorem flush_accepted (b : Buffered) : b.flush.accepted = b.accepted := by
  unfold flush
  split
  · rfl
  · obtain ⟨taken, hout, hcount, hfront, -⟩ := b.wr.write_takes b.held
    obtain ⟨rest, hrest⟩ := hfront
    show (b.wr.write b.held).2.2.out ++ b.held.drop (b.wr.write b.held).1 = b.wr.out ++ b.held
    rw [hout, hcount, ← hrest, List.drop_left, List.append_assoc]

theorem fill_accepted (b : Buffered) (p : Bytes) : (b.fill p).accepted = b.accepted ++ p.take b.available := by
  rw [fill, flush_accepted, accepted, accepted, List.append_assoc]

/-- **A write adds the first bytes of what is written, as many as it counts**, and all of
them when it does not fail. -/
theorem write_accepts (b : Buffered) (p : Bytes) :
    ∃ taken, (b.write p).2.2.accepted = b.accepted ++ taken ∧ (b.write p).1 = taken.length ∧ taken <+: p ∧
      ((b.write p).2.1 = none → taken = p) ∧ (b.write p).2.2.err = (b.write p).2.1 := by
  fun_induction write b p with
  | case1 b p err herr => exact ⟨[], (List.append_nil _).symm, rfl, List.nil_prefix, nofun, herr⟩
  | case2 b p herr hlong hheld n err wr hwrite =>
    obtain ⟨taken, hout, hcount, hfront, hall⟩ := b.wr.write_takes p
    rw [hwrite] at hout hcount hall
    refine ⟨taken, ?_, hcount, hfront, hall, rfl⟩
    show wr.out ++ b.held = b.wr.out ++ b.held ++ taken
    rw [hheld, List.append_nil, List.append_nil]
    exact hout
  | case3 b p herr hlong hheld n err b' hrest ih =>
    rw [hrest] at ih
    obtain ⟨taken, hout, hcount, hfront, hall, herr'⟩ := ih
    have hroom : b.available = (p.take b.available).length := by
      rw [List.length_take]
      omega
    refine ⟨p.take b.available ++ taken, ?_, ?_, ?_, fun hnone => ?_, herr'⟩
    · rw [← List.append_assoc, ← fill_accepted]
      exact hout
    · rw [List.length_append, ← hroom]
      exact congrArg (b.available + ·) hcount
    · obtain ⟨rest, hrest⟩ := hfront
      exact ⟨rest, by rw [List.append_assoc, hrest, List.take_append_drop]⟩
    · rw [hall hnone, List.take_append_drop]
  | case4 b p herr hlong => exact ⟨p, (List.append_assoc _ _ _).symm, rfl, List.prefix_rfl, fun _ => rfl, rfl⟩

/-- What `b'` is when `p` has been written to `b` and nothing passed on. -/
structure Keeps (b : Buffered) (p : Bytes) (b' : Buffered) : Prop where
  size : b'.size = b.size
  held : b'.held = b.held ++ p
  err : b'.err = none
  wr : b'.wr = b.wr

/-- While there is room nothing is passed on. -/
theorem write_keeps {b : Buffered} {p : Bytes} (herr : b.err = none) (hroom : (b.held ++ p).length ≤ b.size) :
    (b.write p).2.1 = none ∧ b.Keeps p (b.write p).2.2 := by
  have hshort : ¬b.available < p.length := by
    rw [List.length_append] at hroom
    rw [available]
    omega
  unfold write
  split
  · rename_i hsome
    rw [herr] at hsome
    cases hsome
  · rw [dif_neg hshort]
    exact ⟨rfl, rfl, rfl, rfl, rfl⟩

/-- There is no error, and the writer below does not fail. -/
def Sound (b : Buffered) : Prop := b.err = none ∧ b.wr.faults = []

theorem Sound.below {b : Buffered} (h : b.Sound) (p : Bytes) :
    b.wr.write p = (p.length, none, ⟨b.wr.out ++ p, []⟩) := by
  rw [Writer.write, h.2]

theorem Sound.fill {b : Buffered} (h : b.Sound) (p : Bytes) : (b.fill p).Sound := by
  rw [Buffered.fill, flush]
  split
  · exact h
  · rw [h.below]
    exact ⟨rfl, rfl⟩

theorem Sound.write {b : Buffered} (h : b.Sound) (p : Bytes) : (b.write p).2.1 = none ∧ (b.write p).2.2.Sound := by
  fun_induction Buffered.write b p with
  | case1 b p err herr =>
    rw [h.1] at herr
    cases herr
  | case2 b p _ _ _ n err wr hwrite =>
    rw [h.below] at hwrite
    cases hwrite
    exact ⟨rfl, rfl, rfl⟩
  | case3 b p _ _ _ n err b' hrest ih =>
    rw [hrest] at ih
    exact ih (h.fill p)
  | case4 b p _ _ => exact ⟨rfl, rfl, h.2⟩

/-! ### Writes one after the other -/

/-- Calls of `Write` with these, until one fails. -/
def deliver (b : Buffered) : List Bytes → Nat × Option Err × Buffered
  | [] => (0, none, b)
  | p :: rest =>
    match b.write p with
    | (n, some err, b') => (n, some err, b')
    | (n, none, b') => (n + (b'.deliver rest).1, (b'.deliver rest).2)

theorem deliver_append (b : Buffered) (front back : List Bytes) :
    b.deliver (front ++ back) =
      match b.deliver front with
      | (n, some err, b') => (n, some err, b')
      | (n, none, b') => (n + (b'.deliver back).1, (b'.deliver back).2) := by
  induction front generalizing b with
  | nil => simp only [List.nil_append, deliver, Nat.zero_add]
  | cons p front ih =>
    rw [List.cons_append, deliver, deliver]
    rcases b.write p with ⟨n, _ | err, b'⟩
    · dsimp only
      rw [ih]
      rcases b'.deliver front with ⟨k, _ | err, b''⟩
      · simp only [Nat.add_assoc]
      · rfl
    · rfl

theorem deliver_accepts (b : Buffered) (calls : List Bytes) :
    ∃ taken, (b.deliver calls).2.2.accepted = b.accepted ++ taken ∧ taken <+: calls.flatten ∧
      ((b.deliver calls).2.1 = none → taken = calls.flatten) := by
  induction calls generalizing b with
  | nil => exact ⟨[], (List.append_nil _).symm, List.prefix_rfl, fun _ => rfl⟩
  | cons p rest ih =>
    obtain ⟨taken, haccepted, -, hfront, hall, -⟩ := b.write_accepts p
    rw [deliver]
    rcases hwrite : b.write p with ⟨n, _ | err, b'⟩
    · rw [hwrite] at haccepted hall
      obtain ⟨more, haccepted', hfront', hall'⟩ := ih b'
      dsimp only at haccepted ⊢
      rw [hall rfl] at haccepted
      refine ⟨p ++ more, ?_, ?_, fun hnone => ?_⟩
      · rw [haccepted', haccepted, List.append_assoc]
      · exact (List.prefix_append_right_inj p).mpr hfront'
      · rw [hall' hnone, List.flatten_cons]
    · rw [hwrite] at haccepted
      exact ⟨taken, haccepted, hfront.trans (List.prefix_append _ _), nofun⟩

/-- The error of a call stays. -/
theorem deliver_err {b : Buffered} {calls : List Bytes} (h : (b.deliver calls).2.2.err = none) :
    (b.deliver calls).2.1 = none := by
  induction calls generalizing b with
  | nil => rfl
  | cons p rest ih =>
    rw [deliver] at h ⊢
    obtain ⟨-, -, -, -, -, herr⟩ := b.write_accepts p
    rcases hwrite : b.write p with ⟨n, _ | err, b'⟩
    · rw [hwrite] at h
      exact ih h
    · rw [hwrite] at h herr
      exact herr.symm.trans h

/-- After an error nothing is taken any more. -/
theorem deliver_stuck {b : Buffered} {err : Err} (h : b.err = some err) (calls : List Bytes) :
    (b.deliver calls).2.2 = b := by
  cases calls with
  | nil => rfl
  | cons p rest =>
    have hwrite : b.write p = (0, some err, b) := by
      unfold write
      split
      · rename_i hsome
        rw [h] at hsome
        cases hsome
        rfl
      · rename_i hnone
        rw [h] at hnone
        cases hnone
    rw [deliver, hwrite]

/-- A sound writer takes everything. -/
theorem Sound.deliver {b : Buffered} (h : b.Sound) (calls : List Bytes) :
    (b.deliver calls).2.1 = none ∧ (b.deliver calls).2.2.Sound := by
  induction calls generalizing b with
  | nil => exact ⟨rfl, h⟩
  | cons p rest ih =>
    obtain ⟨hnone, hsound⟩ := h.write p
    rw [Buffered.deliver]
    rcases hwrite : b.write p with ⟨n, _ | err, b'⟩
    · rw [hwrite] at hsound
      exact ih hsound
    · rw [hwrite] at hnone
      cases hnone

/-- While all of it fits the buffer it stays there. -/
theorem deliver_keeps {b : Buffered} {calls : List Bytes} (herr : b.err = none)
    (hroom : (b.held ++ calls.flatten).length ≤ b.size) :
    (b.deliver calls).2.1 = none ∧ b.Keeps calls.flatten (b.deliver calls).2.2 := by
  induction calls generalizing b with
  | nil => exact ⟨rfl, rfl, (List.append_nil _).symm, herr, rfl⟩
  | cons p rest ih =>
    have hfirst : (b.held ++ p).length ≤ b.size := by
      rw [List.flatten_cons, ← List.append_assoc, List.length_append] at hroom
      omega
    obtain ⟨hnone, hkeeps⟩ := write_keeps herr hfirst
    rw [deliver]
    rcases hwrite : b.write p with ⟨n, _ | err, b'⟩
    · rw [hwrite] at hkeeps
      have hrest : (b'.held ++ rest.flatten).length ≤ b'.size := by
        rw [hkeeps.held, hkeeps.size, List.append_assoc]
        exact hroom
      obtain ⟨hnone', hkeeps'⟩ := ih hkeeps.err hrest
      refine ⟨hnone', hkeeps'.size.trans hkeeps.size, ?_, hkeeps'.err, hkeeps'.wr.trans hkeeps.wr⟩
      rw [hkeeps'.held, hkeeps.held, List.append_assoc, List.flatten_cons]
    · rw [hwrite] at hnone
      cases hnone

end Buffered
end AnarchoRedis.Base
