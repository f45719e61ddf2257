import AnarchoRedis.Base.Decimal

/-! Readers, writers, and counted steps that may fail.

A reader is the list of answers it will give: bytes, and possibly an error with
them; a call with a short buffer takes part of an answer. After the last answer
it reports the end of the file. A writer collects what it is given and may be set
to fail at some calls. A `Step` is what a Go function of the shape
`(total int, err error)` does to the world: it counts what it wrote, stops at the
first error, and has no result when it crashes. -/
namespace AnarchoRedis.Base

inductive Err where
  | eof
  /-- A `strconv.NumError`: the function, its argument, the cause. -/
  | number (fn : String) (num : Bytes) (cause : NumCause)
  /-- Any other error, by its text. -/
  | text (msg : Bytes)
  deriving DecidableEq

/-! ### Readers -/

/-- One answer of a reader. -/
structure Piece where
  bytes : Bytes
  err : Option Err
  deriving DecidableEq

/-- A reader, as the answers it will give. -/
abbrev Source := List Piece

/-- One call of `Read` with a buffer of `n` bytes. -/
def Source.read (n : Nat) : Source → Bytes × Option Err × Source
  | [] => ([], some .eof, [])
  | p :: rest =>
    if p.bytes.length ≤ n then (p.bytes, p.err, rest)
    else (p.bytes.take n, none, ⟨p.bytes.drop n, p.err⟩ :: rest)

/-- Everything the reader has left to give. -/
def Source.bytes (s : Source) : Bytes := s.flatMap Piece.bytes

/-- What a call of `Read` uses up. -/
def Source.size (s : Source) : Nat := (s.map fun p => p.bytes.length + 1).sum

/-- What one call of `Read` does: the reader has ended, or an answer is handed over, in
whole or in part. -/
inductive Source.Reads (n : Nat) : Source → Bytes → Option Err → Source → Prop where
  | ended : Source.Reads n [] [] (some .eof) []
  | whole (b : Bytes) (err : Option Err) (rest : Source) : b.length ≤ n → Source.Reads n (⟨b, err⟩ :: rest) b err rest
  | part (b : Bytes) (err : Option Err) (rest : Source) : n < b.length →
      Source.Reads n (⟨b, err⟩ :: rest) (b.take n) none (⟨b.drop n, err⟩ :: rest)

theorem Source.reads {s s' : Source} {n : Nat} {b : Bytes} {err : Option Err} (h : s.read n = (b, err, s')) :
    Source.Reads n s b err s' := by
  cases s with
  | nil =>
    cases h
    exact .ended
  | cons p rest =>
    rw [Source.read] at h
    split at h
    · rename_i hlen
      cases h
      exact .whole p.bytes p.err _ hlen
    · rename_i hlen
      cases h
      exact .part p.bytes p.err rest (Nat.not_le.mp hlen)

/-- Every call that does not fail uses something up. -/
theorem Source.read_size {s s' : Source} {n : Nat} {b : Bytes} (hn : 0 < n) (h : s.read n = (b, none, s')) :
    s'.size < s.size := by
  cases Source.reads h with
  | whole => simp [Source.size]
  | part bytes err rest hlen =>
    simp only [Source.size, List.map_cons, List.sum_cons, List.length_drop]
    omega

/-- No error before the end, and no empty answer. -/
def Source.Plain (s : Source) : Prop := ∀ p ∈ s, p.bytes ≠ [] ∧ p.err = none

theorem Source.plain_nil : Source.Plain [] := fun _ h => absurd h List.not_mem_nil

theorem Source.plain_singleton {b : UInt8} {bs : Bytes} : Source.Plain [⟨b :: bs, none⟩] := by
  intro p hp
  rw [List.mem_singleton] at hp
  subst hp
  exact ⟨List.cons_ne_nil _ _, rfl⟩

theorem Source.Plain.eq_nil {s : Source} (h : s.Plain) (hb : s.bytes = []) : s = [] := by
  cases s with
  | nil => rfl
  | cons p rest =>
    rw [Source.bytes, List.flatMap_cons, List.append_eq_nil_iff] at hb
    exact absurd hb.1 (h p (List.mem_cons_self ..)).1

/-- A plain reader with something left gives at least one byte, and at most what
was asked for. -/
theorem Source.Plain.read {s : Source} {n : Nat} (h : s.Plain) (hn : 0 < n) (hb : s.bytes ≠ []) :
    ∃ b s', s.read n = (b, none, s') ∧ b ≠ [] ∧ b.length ≤ n ∧ s.bytes = b ++ s'.bytes ∧ s'.Plain := by
  cases s with
  | nil => exact absurd rfl hb
  | cons p rest =>
    obtain ⟨hp, herr⟩ := h p (List.mem_cons_self ..)
    have hrest : Source.Plain rest := fun q hq => h q (List.mem_cons_of_mem p hq)
    rw [Source.read]
    split
    · rename_i hlen
      exact ⟨p.bytes, rest, by rw [herr], hp, hlen, by rw [Source.bytes, List.flatMap_cons, Source.bytes], hrest⟩
    · rename_i hlen
      refine ⟨p.bytes.take n, _, rfl, ?_, List.length_take_le .., ?_, ?_⟩
      · rw [ne_eq, List.take_eq_nil_iff, not_or]
        exact ⟨by omega, hp⟩
      · rw [Source.bytes, Source.bytes, List.flatMap_cons, List.flatMap_cons, ← List.append_assoc,
          List.take_append_drop]
      · intro q hq
        rw [List.mem_cons] at hq
        rcases hq with rfl | hq
        · refine ⟨?_, herr⟩
          rw [ne_eq, List.drop_eq_nil_iff]
          omega
        · exact hrest q hq

/-- One byte at a time, a plain reader gives its bytes one by one. -/
theorem Source.Plain.read_one {s : Source} {c : UInt8} {t : Bytes} (h : s.Plain) (hb : s.bytes = c :: t) :
    ∃ s', s.read 1 = ([c], none, s') ∧ s'.bytes = t ∧ s'.Plain := by
  obtain ⟨b, s', hread, hne, hlen, hbytes, hplain⟩ := h.read Nat.one_pos (by rw [hb]; exact List.cons_ne_nil _ _)
  obtain ⟨x, rfl⟩ : ∃ x, b = [x] := by
    rw [← List.length_eq_one_iff]
    have := List.length_pos_iff.mpr hne
    omega
  rw [hb, List.singleton_append, List.cons.injEq] at hbytes
  obtain ⟨rfl, rfl⟩ := hbytes
  exact ⟨s', hread, rfl, hplain⟩

/-- What the reader gives up to its first error. -/
def Source.good : Source → Bytes
  | [] => []
  | p :: rest =>
    match p.err with
    | some _ => p.bytes
    | none => p.bytes ++ Source.good rest

theorem Source.read_le {s s' : Source} {n : Nat} {b : Bytes} {err : Option Err} (h : s.read n = (b, err, s')) :
    b.length ≤ n := by
  cases Source.reads h with
  | ended => exact Nat.zero_le n
  | whole _ _ _ hlen => exact hlen
  | part => exact List.length_take_le ..

theorem Source.good_read {s s' : Source} {n : Nat} {b : Bytes} (h : s.read n = (b, none, s')) :
    s.good = b ++ s'.good := by
  cases Source.reads h with
  | whole => rfl
  | part bytes err rest =>
    rw [Source.good, Source.good]
    cases err with
    | some err => exact (List.take_append_drop n bytes).symm
    | none => rw [← List.append_assoc, List.take_append_drop]

theorem Source.good_readError {s s' : Source} {n : Nat} {b : Bytes} {err : Err} (h : s.read n = (b, some err, s')) :
    s.good = b := by
  cases Source.reads h with
  | ended | whole => rfl

/-- The first error of the reader; that of the end of the file if there is no other. -/
def Source.failure : Source → Err
  | [] => .eof
  | p :: rest => p.err.getD (Source.failure rest)

theorem Source.failure_read {s s' : Source} {n : Nat} {b : Bytes} (h : s.read n = (b, none, s')) :
    s'.failure = s.failure := by
  cases Source.reads h with
  | whole | part => rfl

theorem Source.failure_readError {s s' : Source} {n : Nat} {b : Bytes} {err : Err} (h : s.read n = (b, some err, s')) :
    s.failure = err := by
  cases Source.reads h with
  | ended | whole => rfl

/-! ### Up to the first error -/

/-- What a reader gives without an error, where no call asks for too much: of the answer
that comes with the first error, all but the last byte. -/
def Source.clear : Source → Bytes
  | [] => []
  | p :: rest =>
    match p.err with
    | some _ => p.bytes.dropLast
    | none => p.bytes ++ Source.clear rest

theorem Source.clear_read {s s' : Source} {n : Nat} {b : Bytes} (h : s.read n = (b, none, s')) :
    s.clear = b ++ s'.clear := by
  cases Source.reads h with
  | whole => rfl
  | part bytes err rest hlen =>
    have hne : bytes.drop n ≠ [] := by
      rw [ne_eq, List.drop_eq_nil_iff]
      exact Nat.not_le.mpr hlen
    rw [Source.clear, Source.clear]
    cases err with
    | some err => rw [← List.dropLast_append_of_ne_nil hne, List.take_append_drop]
    | none => rw [← List.append_assoc, List.take_append_drop]

theorem Source.clear_readError {s s' : Source} {n : Nat} {b : Bytes} {err : Err} (hn : 0 < n)
    (h : s.read n = (b, some err, s')) : s.clear.length < n := by
  cases Source.reads h with
  | ended => exact hn
  | whole _ _ _ hlen =>
    simp only [Source.clear, List.length_dropLast]
    omega

/-- A call for no more than that gets some of it. -/
theorem Source.read_clear {s : Source} {n : Nat} (hn : 0 < n) (h : n ≤ s.clear.length) :
    ∃ b s', s.read n = (b, none, s') ∧ b.length ≤ n ∧ s.clear = b ++ s'.clear := by
  rcases hread : s.read n with ⟨b, _ | err, s'⟩
  · exact ⟨b, s', rfl, Source.read_le hread, Source.clear_read hread⟩
  · exact absurd (Source.clear_readError hn hread) (Nat.not_lt.mpr h)

/-- No error before the end. -/
def Source.Calm (s : Source) : Prop := ∀ p ∈ s, p.err = none

theorem Source.Plain.calm {s : Source} (h : s.Plain) : s.Calm := fun p hp => (h p hp).2

theorem Source.calm_singleton (b : Bytes) : Source.Calm [⟨b, none⟩] := by
  intro p hp
  rw [List.mem_singleton] at hp
  rw [hp]

theorem Source.bytes_singleton (p : Piece) : Source.bytes [p] = p.bytes := List.flatMap_singleton ..

theorem Source.Calm.good {s : Source} (h : s.Calm) : s.good = s.bytes := by
  induction s with
  | nil => rfl
  | cons p rest ih =>
    rw [Source.good, h p List.mem_cons_self, Source.bytes, List.flatMap_cons]
    exact congrArg (p.bytes ++ ·) (ih fun q hq => h q (List.mem_cons_of_mem p hq))

theorem Source.clear_append {s : Source} (h : s.Calm) (t : Source) : Source.clear (s ++ t) = s.bytes ++ t.clear := by
  induction s with
  | nil => rfl
  | cons p rest ih =>
    have hbytes : Source.bytes (p :: rest) = p.bytes ++ Source.bytes rest := List.flatMap_cons
    rw [List.cons_append, Source.clear, h p List.mem_cons_self, hbytes, List.append_assoc,
      ih fun q hq => h q (List.mem_cons_of_mem p hq)]

theorem Source.failure_append {s : Source} (h : s.Calm) (t : Source) : Source.failure (s ++ t) = t.failure := by
  induction s with
  | nil => rfl
  | cons p rest ih =>
    rw [List.cons_append, Source.failure, h p List.mem_cons_self, Option.getD_none,
      ih fun q hq => h q (List.mem_cons_of_mem p hq)]

theorem Source.Calm.clear {s : Source} (h : s.Calm) : s.clear = s.bytes := by
  have hall := Source.clear_append h []
  rw [List.append_nil, Source.clear, List.append_nil] at hall
  exact hall

theorem Source.Calm.failure {s : Source} (h : s.Calm) : s.failure = .eof := by
  have hall := Source.failure_append h []
  rw [List.append_nil] at hall
  exact hall

/-- The end of the file comes together with the last bytes, whatever the answers before
give. -/
def Source.EndsAtOnce (s : Source) : Prop :=
  ∃ (front : Source) (last : Bytes), s = front ++ [⟨last, some .eof⟩] ∧ front.Calm ∧ last ≠ []

theorem Source.EndsAtOnce.bytes {s : Source} (h : s.EndsAtOnce) : ∃ c, s.bytes = s.clear ++ [c] := by
  obtain ⟨front, last, rfl, hfront, hlast⟩ := h
  refine ⟨last.getLast hlast, ?_⟩
  rw [Source.clear_append hfront, Source.clear, List.append_assoc, List.dropLast_concat_getLast, Source.bytes,
    List.flatMap_append, List.flatMap_singleton, Source.bytes]

theorem Source.EndsAtOnce.clear_lt {s : Source} (h : s.EndsAtOnce) : s.clear.length < s.bytes.length := by
  obtain ⟨c, hbytes⟩ := h.bytes
  rw [hbytes, List.length_append, List.length_singleton]
  exact Nat.lt_succ_self _

theorem Source.EndsAtOnce.failure {s : Source} (h : s.EndsAtOnce) : s.failure = .eof := by
  obtain ⟨front, last, rfl, hfront, -⟩ := h
  rw [Source.failure_append hfront]
  rfl

/-- The end of the file comes together with the last bytes. -/
def Source.EndsEarly (s : Source) : Prop :=
  ∃ (front : Source) (last : Bytes), s = front ++ [⟨last, some .eof⟩] ∧ front.Plain ∧ last ≠ []

theorem Source.EndsEarly.endsAtOnce {s : Source} (h : s.EndsEarly) : s.EndsAtOnce := by
  obtain ⟨front, last, heq, hfront, hlast⟩ := h
  exact ⟨front, last, heq, hfront.calm, hlast⟩

/-! ### Writers -/

/-- What has been written, and the faults of the calls to come: how many bytes are
still taken, and the error. -/
structure Writer where
  out : Bytes
  faults : List (Option (Nat × Err))

def Writer.write (w : Writer) (b : Bytes) : Nat × Option Err × Writer :=
  match w.faults with
  | [] => (b.length, none, {w with out := w.out ++ b})
  | none :: rest => (b.length, none, ⟨w.out ++ b, rest⟩)
  | some (n, err) :: rest => ((b.take n).length, some err, ⟨w.out ++ b.take n, rest⟩)

/-- Calls of `Write` with these, one after the other, until one fails. -/
def Writer.deliver (w : Writer) : List Bytes → Nat × Option Err × Writer
  | [] => (0, none, w)
  | b :: rest =>
    match w.write b with
    | (n, some err, w') => (n, some err, w')
    | (n, none, w') => (n + (w'.deliver rest).1, (w'.deliver rest).2)

theorem Writer.write_takes (w : Writer) (b : Bytes) :
    ∃ taken, (w.write b).2.2.out = w.out ++ taken ∧ (w.write b).1 = taken.length ∧ taken <+: b ∧
      ((w.write b).2.1 = none → taken = b) := by
  rw [Writer.write]
  split
  · exact ⟨b, rfl, rfl, List.prefix_rfl, fun _ => rfl⟩
  · exact ⟨b, rfl, rfl, List.prefix_rfl, fun _ => rfl⟩
  · exact ⟨b.take _, rfl, rfl, List.take_prefix _ b, nofun⟩

/-- What is counted is what is accepted, and that is the beginning of what is sent. -/
theorem Writer.deliver_takes (w : Writer) (bs : List Bytes) :
    ∃ taken, (w.deliver bs).2.2.out = w.out ++ taken ∧ (w.deliver bs).1 = taken.length ∧ taken <+: bs.flatten := by
  induction bs generalizing w with
  | nil => exact ⟨[], (List.append_nil _).symm, rfl, List.prefix_rfl⟩
  | cons b rest ih =>
    obtain ⟨taken, hout, hcount, hfront, hall⟩ := w.write_takes b
    rw [Writer.deliver]
    split
    · rename_i n err w' hw
      rw [hw] at hout hcount
      exact ⟨taken, hout, hcount, hfront.trans (List.prefix_append _ _)⟩
    · rename_i n w' hw
      rw [hw] at hout hcount hall
      obtain ⟨more, hout', hcount', hfront'⟩ := ih w'
      refine ⟨taken ++ more, ?_, ?_, ?_⟩
      · have hstep : w'.out = w.out ++ taken := hout
        rw [hout', hstep, List.append_assoc]
      · have hstep : n = taken.length := hcount
        rw [hcount', hstep, List.length_append]
      · rw [List.flatten_cons, hall rfl]
        exact (List.prefix_append_right_inj b).mpr hfront'

/-- A writer that does not fail accepts everything. -/
theorem Writer.deliver_plain (out : Bytes) (bs : List Bytes) :
    Writer.deliver ⟨out, []⟩ bs = (bs.flatten.length, none, ⟨out ++ bs.flatten, []⟩) := by
  induction bs generalizing out with
  | nil => simp [Writer.deliver]
  | cons b rest ih =>
    simp only [Writer.deliver, Writer.write, ih, List.flatten_cons, List.length_append, List.append_assoc]

theorem Writer.deliver_append (w : Writer) (a b : List Bytes) :
    w.deliver (a ++ b) =
      match w.deliver a with
      | (n, some err, w') => (n, some err, w')
      | (n, none, w') => (n + (w'.deliver b).1, (w'.deliver b).2) := by
  induction a generalizing w with
  | nil =>
    simp only [List.nil_append, Writer.deliver, Nat.zero_add]
  | cons c a ih =>
    rw [List.cons_append, Writer.deliver, Writer.deliver]
    split
    · rfl
    · rename_i n w' hw
      rw [ih]
      rcases hd : w'.deliver a with ⟨k, _ | err, w''⟩
      · simp only [Nat.add_assoc]
      · rfl

/-- Calls after a first one, or a first round of them: it fails, or they decide. -/
theorem Writer.deliver_after_cases {first : Nat × Option Err × Writer} {rest : List Bytes} {n : Nat}
    {err : Option Err} {w : Writer}
    (h : (match first with
      | (n, some err, w') => (n, some err, w')
      | (n, none, w') => (n + (w'.deliver rest).1, (w'.deliver rest).2)) = (n, err, w)) :
    (∃ e, first = (n, some e, w) ∧ err = some e) ∨
      ∃ k j w', first = (k, none, w') ∧ w'.deliver rest = (j, err, w) ∧ n = k + j := by
  obtain ⟨k, _ | e, w'⟩ := first
  · rcases hd : w'.deliver rest with ⟨j, e, out⟩
    simp only [hd, Prod.mk.injEq] at h
    obtain ⟨rfl, rfl, rfl⟩ := h
    exact .inr ⟨k, j, w', rfl, hd, rfl⟩
  · cases h
    exact .inl ⟨e, rfl, rfl⟩

theorem Writer.deliver_cons_cases {w w'' : Writer} {b : Bytes} {rest : List Bytes} {n : Nat} {err : Option Err}
    (h : w.deliver (b :: rest) = (n, err, w'')) :
    (∃ e, w.write b = (n, some e, w'') ∧ err = some e) ∨
      ∃ k j w', w.write b = (k, none, w') ∧ w'.deliver rest = (j, err, w'') ∧ n = k + j := by
  rw [Writer.deliver] at h
  exact Writer.deliver_after_cases h

theorem Writer.deliver_append_cases {w w'' : Writer} {a b : List Bytes} {n : Nat} {err : Option Err}
    (h : w.deliver (a ++ b) = (n, err, w'')) :
    (∃ e, w.deliver a = (n, some e, w'') ∧ err = some e) ∨
      ∃ k j w', w.deliver a = (k, none, w') ∧ w'.deliver b = (j, err, w'') ∧ n = k + j := by
  rw [Writer.deliver_append] at h
  exact Writer.deliver_after_cases h

/-! ### Counted steps -/

section
variable {ω : Type}

/-- What is counted, the error if any, and the world after; no result for a crash. -/
def Step (ω : Type) := ω → Option (Nat × Option Err × ω)

def Step.skip : Step ω := fun w => some (0, none, w)

def Step.fail (err : Err) : Step ω := fun w => some (0, some err, w)

def Step.crash : Step ω := fun _ => none

/-- One step and, unless it failed, the next; the counts add up. -/
def Step.andThen (a b : Step ω) : Step ω := fun w =>
  match a w with
  | none => none
  | some (n, some err, w') => some (n, some err, w')
  | some (n, none, w') => (b w').map fun r => (n + r.1, r.2)

/-- From `w` the step succeeds, counts `n` and leaves `w'`. -/
def Step.Runs (s : Step ω) (w : ω) (n : Nat) (w' : ω) : Prop := s w = some (n, none, w')

theorem Step.runs_skip (w : ω) : Step.skip.Runs w 0 w := rfl

theorem Step.Runs.andThen {a b : Step ω} {w w' w'' : ω} {n k : Nat} (ha : a.Runs w n w') (hb : b.Runs w' k w'') :
    (a.andThen b).Runs w (n + k) w'' := by
  unfold Step.Runs Step.andThen
  rw [ha]
  simp only [show b w' = some (k, none, w'') from hb, Option.map_some]

end

end AnarchoRedis.Base
