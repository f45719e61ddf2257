import AnarchoRedis.Protocol.Coder

/-! Reading the body of a message whole.

`ReadAll` makes a buffer of the run length and fills it from the reader. It hides what
goes wrong there: a reader that ends early or fails gives the empty string and no
error; a negative run length, or no reader at all, crashes. `Message.body` says what
the whole body is, if the reader gives it (`readAll_eq`). A reader is used up by being
read, so that the message comes back with the reader as it is then. -/
namespace AnarchoRedis.Protocol
open Base

/-! ### Filling a buffer -/

/-- What a reader gives up to its first error. -/
def Reader.good (conn : Source) : Reader → Bytes
  | .own source => source.good
  | .limit left => conn.good.take left.toNat

section
variable {n : Nat} {conn conn' : Source} {r r' : Reader} {b : Bytes}

theorem Reader.read_le {err : Option Err} (h : r.read n conn = (b, err, r', conn')) : b.length ≤ n := by
  cases Reader.reads h with
  | own hread => exact Source.read_le hread
  | spent => exact Nat.zero_le n
  | limit _ hread => exact (Source.read_le hread).trans (min_le_left ..)

theorem Reader.good_read (h : r.read n conn = (b, none, r', conn')) : r.good conn = b ++ r'.good conn' := by
  cases Reader.reads h with
  | own hread => exact Source.good_read hread
  | @limit left _ _ _ _ hread =>
    have hlen := (Source.read_le hread).trans (min_le_right ..)
    have hleft : (left - (b.length : Int)).toNat = left.toNat - b.length := by omega
    simp only [Reader.good, hleft]
    rw [Source.good_read hread, List.take_append, List.take_of_length_le hlen]

theorem Reader.good_readError {err : Err} (h : r.read n conn = (b, some err, r', conn')) : r.good conn = b := by
  cases Reader.reads h with
  | own hread => exact Source.good_readError hread
  | spent hleft => rw [Reader.good, Int.toNat_of_nonpos hleft, List.take_zero]
  | limit _ hread =>
    have hlen := (Source.read_le hread).trans (min_le_right ..)
    rw [Reader.good, Source.good_readError hread, List.take_of_length_le hlen]

end

/-- `io.ReadFull` into a buffer of `n` bytes: the bytes, unless it fails; the reader and
the connection after it. -/
def readFull (n : Nat) (r : Reader) (conn : Source) : Option Bytes × Reader × Source :=
  if _hn : 0 < n then
    match _h : r.read n conn with
    | (b, some _, r', conn') => (if b.length = n then some b else none, r', conn')
    | (b, none, r', conn') =>
      let x := readFull (n - b.length) r' conn'
      (x.1.map (b ++ ·), x.2)
  else (some [], r, conn)
termination_by r.size conn
decreasing_by exact Reader.read_size _hn _h

/-- The buffer is filled when the reader has enough before its first error. -/
theorem readFull_eq (n : Nat) (r : Reader) (conn : Source) :
    (readFull n r conn).1 = if n ≤ (r.good conn).length then some ((r.good conn).take n) else none := by
  fun_induction readFull n r conn with
  | case1 n r conn hn b err r' conn' h =>
    have hle := Reader.read_le h
    rw [Reader.good_readError h]
    by_cases hlen : b.length = n
    · rw [if_pos hlen, if_pos hlen.ge, List.take_of_length_le hlen.le]
    · rw [if_neg hlen, if_neg (by omega)]
  | case2 n r conn hn b r' conn' h x ih =>
    have hle := Reader.read_le h
    rw [ih, Reader.good_read h, List.length_append, List.take_append, List.take_of_length_le hle]
    by_cases hlen : n - b.length ≤ (r'.good conn').length
    · rw [if_pos hlen, if_pos (by omega), Option.map_some]
    · rw [if_neg hlen, if_neg (by omega), Option.map_none]
  | case3 n r conn hn =>
    obtain rfl : n = 0 := by omega
    rw [if_pos (Nat.zero_le _), List.take_zero]

/-! ### The body of a message -/

namespace Message

/-- `ReadAll`: the string and the error it returns, and the message and the connection
after it. The error of `ReadFull` is dropped. -/
def readAll (m : Message) (conn : Source) : Option ((Bytes × Option Err) × Message × Source) :=
  if m.runLength.toInt < 0 then none
  else
    match m.reader with
    | none => if m.runLength.toInt = 0 then some (([], none), m, conn) else none
    | some r =>
      let x := readFull m.runLength.toInt.toNat r conn
      match x.1 with
      | none => some (([], none), {m with reader := some x.2.1}, x.2.2)
      | some b => some ((b, none), {m with reader := some x.2.1}, x.2.2)

/-- The whole body, as long as the run length says, if there is one to be had. -/
def body (m : Message) (conn : Source) : Option Bytes :=
  if m.runLength.toInt < 0 then none
  else
    let n := m.runLength.toInt.toNat
    let good := (m.reader.map (Reader.good conn)).getD []
    if n ≤ good.length then some (good.take n) else none

/-- The connection once the body has been read. -/
def connAfter (m : Message) (conn : Source) : Source :=
  match m.readAll conn with
  | some (_, _, conn') => conn'
  | none => conn

variable {m m' : Message} {conn conn' : Source} {b : Bytes} {err : Option Err}

/-- `ReadAll` returns no error. -/
theorem readAll_noError (h : m.readAll conn = some ((b, err), m', conn')) : err = none := by
  unfold readAll at h
  split at h
  · cases h
  · split at h
    · split at h
      · cases h
        rfl
      · cases h
    · dsimp only at h
      split at h
      · cases h
        rfl
      · cases h
        rfl

theorem connAfter_eq (h : m.readAll conn = some ((b, err), m', conn')) : m.connAfter conn = conn' := by
  rw [connAfter, h]

/-- `ReadAll` gives the body when there is one. -/
theorem readAll_eq (h : m.body conn = some b) : ∃ m', m.readAll conn = some ((b, none), m', m.connAfter conn) := by
  obtain ⟨m', conn', hread⟩ : ∃ m' conn', m.readAll conn = some ((b, none), m', conn') := by
    unfold body at h
    split at h
    · cases h
    · rename_i hpos
      rw [readAll, if_neg hpos]
      dsimp only at h
      split at h
      · rename_i hlen
        cases hr : m.reader with
        | none =>
          rw [hr, Option.map_none, Option.getD_none, List.length_nil] at hlen
          rw [hr, Option.map_none, Option.getD_none, List.take_nil, Option.some.injEq] at h
          subst h
          exact ⟨m, conn, by dsimp only; rw [if_pos (by omega)]⟩
        | some r =>
          rw [hr, Option.map_some, Option.getD_some] at hlen h
          have hfull := readFull_eq m.runLength.toInt.toNat r conn
          rw [if_pos hlen, h] at hfull
          dsimp only
          rw [hfull]
          exact ⟨_, _, rfl⟩
      · cases h
  exact ⟨m', by rw [connAfter_eq hread, hread]⟩

end Message

/-- The bodies of the elements, one after the other: each comes without an error and has
its whole body. -/
def bodies (conn : Source) : List (Message × Option Err) → Option (List Bytes)
  | [] => some []
  | (_, some _) :: _ => none
  | (m, none) :: rest =>
    match m.body conn with
    | none => none
    | some b => (bodies (m.connAfter conn) rest).map (b :: ·)

/-- What ranging over an iterator goes through, and the connection then; there is
nothing to call when there is no iterator. -/
def elements (fl : Floats) (conn : Source) : Option (Feed Message) → Option (List (Message × Option Err) × Source)
  | none => none
  | some (.items xs) => some (xs, conn)
  | some .conn =>
    let y := iterate fl conn
    some ([(y.msg, y.err)], y.rest)

/-- The iterator once its elements have been read from. -/
def moved (args : Option (Feed Message)) (xs : List (Message × Option Err)) : Option (Feed Message) :=
  match args with
  | some (.items _) => some (.items xs)
  | _ => args

theorem bodies_length {conn : Source} {xs : List (Message × Option Err)} {bs : List Bytes}
    (h : bodies conn xs = some bs) : bs.length = xs.length := by
  induction xs generalizing conn bs with
  | nil =>
    cases h
    rfl
  | cons x xs ih =>
    obtain ⟨m, _ | err⟩ := x
    · rw [bodies] at h
      split at h
      · cases h
      · obtain ⟨bs, hrest, rfl⟩ := Option.map_eq_some_iff.mp h
        rw [List.length_cons, List.length_cons, ih hrest]
    · cases h

theorem bodies_take {conn : Source} {xs : List (Message × Option Err)} {bs : List Bytes}
    (h : bodies conn xs = some bs) (n : Nat) : bodies conn (xs.take n) = some (bs.take n) := by
  induction xs generalizing conn bs n with
  | nil =>
    cases h
    rw [List.take_nil, List.take_nil, bodies]
  | cons x xs ih =>
    cases n with
    | zero => rfl
    | succ n =>
      obtain ⟨m, _ | err⟩ := x
      · rw [bodies] at h
        rw [List.take_succ_cons, bodies]
        split at h
        · cases h
        · obtain ⟨bs, hrest, rfl⟩ := Option.map_eq_some_iff.mp h
          rw [ih hrest, Option.map_some, List.take_succ_cons]
      · cases h

end AnarchoRedis.Protocol
