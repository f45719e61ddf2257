import AnarchoRedis.Protocol.Coder

/-! `Decode` comes to an end.

The loops of `Iterate` and `simpleUnmarshal` have no bound of their own. Here they are
given a number of rounds and no result when the rounds run out, with the calls of the
consumer written down in order. A round uses up at least one answer or one byte of the
reader, so that a number of rounds above what the reader has is enough, whatever the
bytes are (`decode_ends`). -/
namespace AnarchoRedis.Protocol
open Base

/-! ### Loops by rounds -/

/-- The loop of `simpleUnmarshal`, for so many rounds. -/
def unmarshalRounds : Nat → Bytes → Source → Option LineRead
  | 0, _, _ => none
  | n + 1, buf, r =>
    match r.read 1 with
    | (_, some err, r') => some ⟨[], buf.length, some err, r'⟩
    | (b, none, r') =>
      let buf := buf ++ b
      if buf.length > eol.length ∧ buf.drop (buf.length - eol.length) = eol then
        some ⟨buf.take (buf.length - eol.length), buf.length, none, r'⟩
      else unmarshalRounds n buf r'

/-- The loop that sets the children of a message once for each of them. -/
def assignRounds {α : Type} : Nat → Option (Feed α) → Option (Feed α)
  | 0, feed => feed
  | n + 1, _ => assignRounds n (some .conn)

/-- `aggregateMessage` with its loops written out. -/
def aggregateRounds (k : Kind) (total runLength : Int64) (encoding : Encoding) : Message where
  totalMessageSize := total
  runLength := runLength
  encoding := encoding
  reader :=
    match k with
    | .verbatimString | .bulkString | .bulkError => some (.limit runLength.toInt)
    | _ => none
  seq :=
    match k with
    | .array | .set | .push => assignRounds runLength.toInt.toNat none
    | _ => none
  assoc :=
    match k with
    | .map | .attribute => assignRounds runLength.toInt.toNat none
    | _ => none

/-- A pass over the header of an aggregate, with so many rounds for a second line. -/
def headerRounds (k : Kind) (n : Nat) (line : LineRead) : Option Pass :=
  match line.err with
  | some err => some (.stop (some err) line.rest)
  | none =>
    match parseInt line.str with
    | .error cause => some (.stop (some (.number "ParseInt" line.str cause)) line.rest)
    | .ok runLength =>
      let total := 1 + Int64.ofNat line.size + runLength
      if k = .verbatimString then
        (unmarshalRounds n [] line.rest).map fun enc =>
          match enc.err, enc.str with
          | some err, _ => .stop (some err) enc.rest
          | none, [a, b, c] => .built (aggregateRounds k (total + 3) runLength ⟨a, b, c⟩) enc.rest
          | none, _ => .stop (some (.text (ascii "invalid string size: " ++ formatNat enc.size))) enc.rest
      else some (.built (aggregateRounds k total runLength ⟨0, 0, 0⟩) line.rest)

/-- One pass of the loop of `Iterate`, with so many rounds for each line. -/
def passRounds (fl : Floats) (n : Nat) (r : Source) : Option Pass :=
  match r.read 1 with
  | (_, some err, r') => some (.stop (some err) r')
  | (b, none, r') =>
    match Kind.ofByte (b.headD 0) with
    | none => some (.built {} r')
    | some k =>
      (unmarshalRounds n [] r').bind fun line =>
        match k.category with
        | .simple => some (simplePass fl k line)
        | .aggregate => headerRounds k n line

/-- `Iterate` for so many rounds: the calls of the consumer, in order, and the reader
when it returns. What the consumer answers is dropped. -/
def iterateRounds (fl : Floats) : Nat → Source → Option (List (Message × Option Err) × Source)
  | 0, _ => none
  | n + 1, r =>
    (passRounds fl n r).bind fun
      | .stop err rest => some ([({}, err)], rest)
      | .built _ rest => iterateRounds fl n rest

/-- What `Decode` returns. -/
inductive Decoded where
  | first (msg : Message) (err : Option Err)
  /-- `reader closed before message could be read`. -/
  | closed

def decodeRounds (fl : Floats) (n : Nat) (r : Source) : Option Decoded :=
  (iterateRounds fl n r).map fun
    | ((msg, err) :: _, _) => .first msg err
    | ([], _) => .closed

/-! ### Enough rounds -/

theorem unmarshalRounds_eq {n : Nat} {buf : Bytes} {r : Source} (h : r.size < n) :
    unmarshalRounds n buf r = some (unmarshalLoop buf r) := by
  induction n generalizing buf r with
  | zero => exact absurd h (Nat.not_lt_zero _)
  | succ n ih =>
    rcases hread : r.read 1 with ⟨b, _ | err, r'⟩
    · have hsize := Source.read_size Nat.one_pos hread
      rw [unmarshalRounds, hread, unmarshalLoop_read hread]
      dsimp only
      split
      · rfl
      · exact ih (by omega)
    · rw [unmarshalRounds, hread, unmarshalLoop_readError hread]

/-- Setting the children again and again leaves what setting them once does. -/
theorem assignRounds_eq {α : Type} (n : Int) :
    assignRounds n.toNat (none : Option (Feed α)) = if 0 < n then some .conn else none := by
  have hsome (k : Nat) : assignRounds k (some (Feed.conn : Feed α)) = some .conn := by
    induction k with
    | zero => rfl
    | succ k ih => exact ih
  split
  · obtain ⟨k, hk⟩ : ∃ k, n.toNat = k + 1 := ⟨n.toNat - 1, by omega⟩
    rw [hk, assignRounds, hsome]
  · rw [Int.toNat_of_nonpos (by omega), assignRounds]

theorem aggregateRounds_eq : aggregateRounds = aggregateMessage := by
  funext k total runLength encoding
  cases k <;> simp only [aggregateRounds, aggregateMessage, assignRounds_eq]

theorem headerRounds_eq {k : Kind} {n : Nat} {line : LineRead} (h : line.rest.size < n) :
    headerRounds k n line = some (aggregatePass k line) := by
  unfold headerRounds aggregatePass
  rw [aggregateRounds_eq]
  rcases line.err with _ | err
  · rcases parseInt line.str with cause | runLength
    · rfl
    · dsimp only
      split
      · rw [unmarshalRounds_eq h]
        rfl
      · rfl
  · rfl

theorem passRounds_eq {fl : Floats} {n : Nat} {r : Source} (h : r.size ≤ n) :
    passRounds fl n r = some (iteratePass fl r) := by
  unfold passRounds iteratePass
  rcases hread : r.read 1 with ⟨b, _ | err, r'⟩
  · have hsize := Source.read_size Nat.one_pos hread
    dsimp only
    rcases Kind.ofByte (b.headD 0) with _ | k
    · rfl
    · have hline := unmarshalLoop_size [] r'
      simp only [unmarshalRounds_eq (show r'.size < n by omega), Option.bind_some, kindPass, simpleUnmarshal]
      rcases k.category with _ | _
      · rfl
      · exact headerRounds_eq (by omega)
  · rfl

/-- With rounds above what the reader has, the loop ends with one call of the
consumer, the one that `iterate` gives. -/
theorem iterateRounds_eq {fl : Floats} {n : Nat} {r : Source} (h : r.size < n) :
    iterateRounds fl n r = some ([((iterate fl r).msg, (iterate fl r).err)], (iterate fl r).rest) := by
  induction n generalizing r with
  | zero => exact absurd h (Nat.not_lt_zero _)
  | succ n ih =>
    rw [iterateRounds, passRounds_eq (by omega), Option.bind_some]
    rcases hpass : iteratePass fl r with ⟨err, rest⟩ | ⟨m, rest⟩
    · rw [iterate_stop hpass]
    · have hsize := iteratePass_size hpass
      rw [iterate_built hpass]
      exact ih (by omega)

/-- Whatever the bytes and the answers of the reader are, `Iterate` calls its consumer
once and returns, and `Decode` returns what that call was given. -/
theorem decode_ends (fl : Floats) (r : Source) (extra : Nat) :
    (∃ msg err rest, iterateRounds fl (r.size + 1 + extra) r = some ([(msg, err)], rest) ∧
      decodeRounds fl (r.size + 1 + extra) r = some (.first msg err) ∧ decode fl r = (msg, err, rest)) := by
  have hends : iterateRounds fl (r.size + 1 + extra) r = _ := iterateRounds_eq (by omega)
  refine ⟨_, _, _, hends, ?_, rfl⟩
  rw [decodeRounds, hends, Option.map_some]

end AnarchoRedis.Protocol
