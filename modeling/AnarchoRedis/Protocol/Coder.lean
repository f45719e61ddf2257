import AnarchoRedis.Protocol.Message

/-! Reading messages from a connection and writing them to a writer.

`Iterate` is a loop: each pass reads a kind byte and a header and builds a
message, and the next pass begins. It yields only where it ends, and then the
zero message with the error; what a pass builds is dropped. A message built from
a header refers to the connection it came from, so encoding it reads on there:
`World` is the connection and the writer together. -/
namespace AnarchoRedis.Protocol
open Base

/-- The conversions of doubles, which are the standard library's. -/
structure Floats where
  parse : Bytes → Except NumCause UInt64
  format : UInt64 → Bytes

/-- Reads no double and writes every one as nothing. -/
def noFloats : Floats := ⟨fun _ => .error .invalid, fun _ => []⟩

structure Encoder where
  chunkSize : Int64 := 0

/-! ### Reading -/

/-- The results of `simpleUnmarshal`, and the reader after it. -/
structure LineRead where
  str : Bytes
  size : Nat
  err : Option Err
  rest : Source

/-- The loop of `simpleUnmarshal`. The terminator counts only once something stands
before it. -/
def unmarshalLoop (buf : Bytes) (r : Source) : LineRead :=
  match _h : r.read 1 with
  | (_, some err, r') => ⟨[], buf.length, some err, r'⟩
  | (b, none, r') =>
    let buf := buf ++ b
    if buf.length > eol.length ∧ buf.drop (buf.length - eol.length) = eol then
      ⟨buf.take (buf.length - eol.length), buf.length, none, r'⟩
    else unmarshalLoop buf r'
termination_by r.size
decreasing_by exact Source.read_size Nat.one_pos _h

theorem unmarshalLoop_read {buf b : Bytes} {r r' : Source} (h : r.read 1 = (b, none, r')) :
    unmarshalLoop buf r =
      if (buf ++ b).length > eol.length ∧ (buf ++ b).drop ((buf ++ b).length - eol.length) = eol then
        ⟨(buf ++ b).take ((buf ++ b).length - eol.length), (buf ++ b).length, none, r'⟩
      else unmarshalLoop (buf ++ b) r' := by
  rw [unmarshalLoop]
  split
  · rename_i hr
    rw [h] at hr
    cases hr
  · rename_i hr
    rw [h] at hr
    cases hr
    rfl

theorem unmarshalLoop_readError {buf b : Bytes} {r r' : Source} {err : Err} (h : r.read 1 = (b, some err, r')) :
    unmarshalLoop buf r = ⟨[], buf.length, some err, r'⟩ := by
  rw [unmarshalLoop]
  split
  · rename_i hr
    rw [h] at hr
    cases hr
    rfl
  · rename_i hr
    rw [h] at hr
    cases hr

def simpleUnmarshal (r : Source) : LineRead := unmarshalLoop [] r

/-- What a pass of the loop comes to. -/
inductive Pass where
  /-- `yield(Message{}, err)`, and the end. -/
  | stop (err : Option Err) (rest : Source)
  /-- The message is built, and the next pass begins. -/
  | built (m : Message) (rest : Source)

/-- The message of a simple kind. A big number that cannot be read leaves the error
of the line, which is none. -/
def simpleMessage (fl : Floats) (k : Kind) (str : Bytes) : Except (Option Err) Message :=
  match k with
  | .simpleString => .ok (.ofSimpleString str)
  | .error => .ok (.ofError str)
  | .int =>
    match parseInt str with
    | .error cause => .error (some (.number "ParseInt" str cause))
    | .ok i => .ok (.ofInt i)
  | .null => .ok .ofNull
  | .bool =>
    match parseBool str with
    | .error cause => .error (some (.number "ParseBool" str cause))
    | .ok b => .ok (.ofBool b)
  | .double =>
    match fl.parse str with
    | .error cause => .error (some (.number "ParseFloat" str cause))
    | .ok f => .ok (.ofDouble f)
  | .bigNumber =>
    match setString str with
    | none => .error none
    | some i => .ok (.ofBigNumber i)
  | _ => .ok {}

def simplePass (fl : Floats) (k : Kind) (line : LineRead) : Pass :=
  match line.err with
  | some err => .stop (some err) line.rest
  | none =>
    match simpleMessage fl k line.str with
    | .error err => .stop err line.rest
    | .ok m => .built {m with totalMessageSize := 1 + Int64.ofNat line.size} line.rest

/-- The message of an aggregate kind, which nothing gives its kind. -/
def aggregateMessage (k : Kind) (total runLength : Int64) (encoding : Encoding) : Message where
  totalMessageSize := total
  runLength := runLength
  encoding := encoding
  reader :=
    match k with
    | .verbatimString | .bulkString | .bulkError => some (.limit runLength.toInt)
    | _ => none
  seq :=
    match k with
    | .array | .set | .push => if 0 < runLength.toInt then some .conn else none
    | _ => none
  assoc :=
    match k with
    | .map | .attribute => if 0 < runLength.toInt then some .conn else none
    | _ => none

def aggregatePass (k : Kind) (line : LineRead) : Pass :=
  match line.err with
  | some err => .stop (some err) line.rest
  | none =>
    match parseInt line.str with
    | .error cause => .stop (some (.number "ParseInt" line.str cause)) line.rest
    | .ok runLength =>
      let total := 1 + Int64.ofNat line.size + runLength
      if k = .verbatimString then
        let enc := simpleUnmarshal line.rest
        match enc.err, enc.str with
        | some err, _ => .stop (some err) enc.rest
        | none, [a, b, c] => .built (aggregateMessage k (total + 3) runLength ⟨a, b, c⟩) enc.rest
        | none, _ => .stop (some (.text (ascii "invalid string size: " ++ formatNat enc.size))) enc.rest
      else .built (aggregateMessage k total runLength ⟨0, 0, 0⟩) line.rest

/-- A pass from the header line on. -/
def kindPass (fl : Floats) (k : Kind) (line : LineRead) : Pass :=
  match k.category with
  | .simple => simplePass fl k line
  | .aggregate => aggregatePass k line

/-- One pass of the loop of `Iterate`. A read that gives nothing leaves the kind
zero. -/
def iteratePass (fl : Floats) (r : Source) : Pass :=
  match r.read 1 with
  | (_, some err, r') => .stop (some err) r'
  | (b, none, r') =>
    match Kind.ofByte (b.headD 0) with
    | none => .built {} r'
    | some k => kindPass fl k (simpleUnmarshal r')

theorem unmarshalLoop_size (buf : Bytes) (r : Source) : (unmarshalLoop buf r).rest.size ≤ r.size := by
  fun_induction unmarshalLoop buf r with
  | case1 buf r b err r' h =>
    cases Source.reads h with
    | ended => exact le_rfl
    | whole => simp [Source.size]
  | case2 buf r b r' h => exact (Source.read_size Nat.one_pos h).le
  | case3 buf r b r' h _ _ ih => exact ih.trans (Source.read_size Nat.one_pos h).le

theorem simpleUnmarshal_size (r : Source) : (simpleUnmarshal r).rest.size ≤ r.size := unmarshalLoop_size [] r

theorem simplePass_rest {fl : Floats} {k : Kind} {line : LineRead} {m : Message} {rest : Source}
    (h : simplePass fl k line = .built m rest) : rest = line.rest := by
  unfold simplePass at h
  split at h
  · cases h
  · split at h
    · cases h
    · cases h
      rfl

theorem aggregatePass_size {k : Kind} {line : LineRead} {m : Message} {rest : Source}
    (h : aggregatePass k line = .built m rest) : rest.size ≤ line.rest.size := by
  unfold aggregatePass at h
  split at h
  · cases h
  · split at h
    · cases h
    · dsimp only at h
      split at h
      -- Only a verbatim string reads a second line.
      · split at h
        · cases h
        · cases h
          exact simpleUnmarshal_size _
        · cases h
      · cases h
        exact le_rfl

theorem kindPass_size {fl : Floats} {k : Kind} {line : LineRead} {m : Message} {rest : Source}
    (h : kindPass fl k line = .built m rest) : rest.size ≤ line.rest.size := by
  unfold kindPass at h
  split at h
  · rw [simplePass_rest h]
  · exact aggregatePass_size h

/-- A pass that builds a message uses something up. -/
theorem iteratePass_size {fl : Floats} {r rest : Source} {m : Message} (h : iteratePass fl r = .built m rest) :
    rest.size < r.size := by
  unfold iteratePass at h
  split at h
  · cases h
  · rename_i b r' hr
    have hread : r'.size < r.size := Source.read_size Nat.one_pos hr
    split at h
    · cases h
      exact hread
    · calc
        rest.size ≤ (simpleUnmarshal r').rest.size := kindPass_size h
        _ ≤ r'.size := simpleUnmarshal_size r'
        _ < r.size := hread

/-- What an iteration yields, the reader then, and whether it goes on after it. -/
structure Yield where
  msg : Message
  err : Option Err
  rest : Source
  more : Bool

def iterate (fl : Floats) (r : Source) : Yield :=
  match _h : iteratePass fl r with
  | .stop err rest => ⟨{}, err, rest, false⟩
  | .built _ rest => iterate fl rest
termination_by r.size
decreasing_by exact iteratePass_size _h

theorem iterate_stop {fl : Floats} {r rest : Source} {err : Option Err} (h : iteratePass fl r = .stop err rest) :
    iterate fl r = ⟨{}, err, rest, false⟩ := by
  rw [iterate]
  split
  · rename_i hpass
    rw [h] at hpass
    cases hpass
    rfl
  · rename_i hpass
    rw [h] at hpass
    cases hpass

theorem iterate_built {fl : Floats} {r rest : Source} {m : Message} (h : iteratePass fl r = .built m rest) :
    iterate fl r = iterate fl rest := by
  rw [iterate]
  split
  · rename_i hpass
    rw [h] at hpass
    cases hpass
  · rename_i hpass
    rw [h] at hpass
    cases hpass
    rfl

/-- `Decode` returns what `Iterate` yields first; there always is a first. -/
def decode (fl : Floats) (r : Source) : Message × Option Err × Source :=
  let y := iterate fl r
  (y.msg, y.err, y.rest)

/-- `chunk`, with the pair collected so far and whether its first half is new. After
an error it goes on, the element in its place. -/
def chunk {α : Type} (kv : α × α) (half : Bool) : List (α × Option Err) → List ((α × α) × Option Err)
  | [] => []
  | (msg, err) :: rest =>
    let failed := match err with
      | some err => [(kv, some err)]
      | none => []
    if half then failed ++ ((kv.1, msg), none) :: chunk (kv.1, msg) false rest
    else failed ++ chunk (msg, kv.2) true rest

/-! ### Writing -/

structure World where
  conn : Source
  out : Writer

def write (b : Bytes) : Step World := fun w =>
  let (n, err, out) := w.out.write b
  some (n, err, {w with out := out})

/-- One call of `Read`: the bytes, the error, and the reader and the connection
after it. -/
def Reader.read (n : Nat) (conn : Source) : Reader → Bytes × Option Err × Reader × Source
  | .own source =>
    let (b, err, source') := source.read n
    (b, err, .own source', conn)
  | .limit left =>
    if left ≤ 0 then ([], some .eof, .limit left, conn)
    else
      let (b, err, conn') := conn.read (min n left.toNat)
      (b, err, .limit (left - b.length), conn')

/-- What a reader can still use up. -/
def Reader.size (conn : Source) : Reader → Nat
  | .own source => source.size
  | .limit _ => conn.size

/-- What one call of `Read` does: it is one of the message's own reader, or one of the
connection for no more than what is left, if anything is. -/
inductive Reader.Reads (n : Nat) (conn : Source) : Reader → Bytes → Option Err → Reader → Source → Prop where
  | own {source rest : Source} {b : Bytes} {err : Option Err} : source.read n = (b, err, rest) →
      Reader.Reads n conn (.own source) b err (.own rest) conn
  | spent {left : Int} : left ≤ 0 → Reader.Reads n conn (.limit left) [] (some .eof) (.limit left) conn
  | limit {left : Int} {conn' : Source} {b : Bytes} {err : Option Err} : 0 < left →
      conn.read (min n left.toNat) = (b, err, conn') →
      Reader.Reads n conn (.limit left) b err (.limit (left - b.length)) conn'

theorem Reader.reads {n : Nat} {conn conn' : Source} {r r' : Reader} {b : Bytes} {err : Option Err}
    (h : r.read n conn = (b, err, r', conn')) : Reader.Reads n conn r b err r' conn' := by
  cases r with
  | own source =>
    cases h
    exact .own rfl
  | limit left =>
    rw [Reader.read] at h
    split at h
    · rename_i hleft
      cases h
      exact .spent hleft
    · rename_i hleft
      cases h
      exact .limit (Int.not_le.mp hleft) rfl

theorem Reader.read_size {n : Nat} {conn conn' : Source} {r r' : Reader} {b : Bytes} (hn : 0 < n)
    (h : r.read n conn = (b, none, r', conn')) : r'.size conn' < r.size conn := by
  cases Reader.reads h with
  | own hread => exact Source.read_size hn hread
  | limit hleft hread => exact Source.read_size (by omega) hread

/-- The length of the buffer that `emptyBuffer` makes. -/
def emptyBuffer (chunkSize runLength : Int) : Nat :=
  let bufferSize := if chunkSize < 1 then 409 else chunkSize
  (if runLength > bufferSize then bufferSize else runLength).toNat

theorem emptyBuffer_pos (chunkSize : Int) {left : Int} (h : 0 < left) : 0 < emptyBuffer chunkSize left := by
  unfold emptyBuffer
  dsimp only
  split <;> split <;> omega

theorem emptyBuffer_le (chunkSize : Int) (n : Nat) : emptyBuffer chunkSize n ≤ n := by
  unfold emptyBuffer
  dsimp only
  split <;> split <;> omega

/-- The loop of `writeBulk`, and the terminator after it. -/
def bulkLoop (chunkSize : Int) (left : Int) (r : Reader) (w : World) : Option (Nat × Option Err × World) :=
  if _hleft : 0 < left then
    match _h : r.read (emptyBuffer chunkSize left) w.conn with
    | (_, some err, _, conn) => some (0, some err, {w with conn := conn})
    | (b, none, r', conn) =>
      match w.out.write b with
      | (n, some err, out) => some (n, some err, ⟨conn, out⟩)
      | (n, none, out) => (bulkLoop chunkSize (left - n) r' ⟨conn, out⟩).map fun x => (n + x.1, x.2)
  else write eol w
termination_by r.size w.conn
decreasing_by exact Reader.read_size (emptyBuffer_pos chunkSize _hleft) _h

/-- The reader as the loop of `writeBulk` leaves it. -/
def bulkReader (chunkSize : Int) (left : Int) (r : Reader) (w : World) : Reader :=
  if _hleft : 0 < left then
    match _h : r.read (emptyBuffer chunkSize left) w.conn with
    | (_, some _, r', _) => r'
    | (b, none, r', conn) =>
      match w.out.write b with
      | (_, some _, _) => r'
      | (n, none, out) => bulkReader chunkSize (left - n) r' ⟨conn, out⟩
  else r
termination_by r.size w.conn
decreasing_by exact Reader.read_size (emptyBuffer_pos chunkSize _hleft) _h

section
variable {chunkSize left : Int} {r r' : Reader} {b : Bytes} {w : World} {conn : Source}

/-- A round of the loop: what the reader returns is written. -/
theorem bulkLoop_read (hpos : 0 < left) (hread : r.read (emptyBuffer chunkSize left) w.conn = (b, none, r', conn)) :
    bulkLoop chunkSize left r w =
      match w.out.write b with
      | (n, some err, out) => some (n, some err, ⟨conn, out⟩)
      | (n, none, out) => (bulkLoop chunkSize (left - n) r' ⟨conn, out⟩).map fun x => (n + x.1, x.2) := by
  rw [bulkLoop, dif_pos hpos]
  split
  · rename_i heq
    rw [hread] at heq
    cases heq
  · rename_i heq
    rw [hread] at heq
    cases heq
    rfl

theorem bulkReader_read (hpos : 0 < left) (hread : r.read (emptyBuffer chunkSize left) w.conn = (b, none, r', conn)) :
    bulkReader chunkSize left r w =
      match w.out.write b with
      | (_, some _, _) => r'
      | (n, none, out) => bulkReader chunkSize (left - n) r' ⟨conn, out⟩ := by
  rw [bulkReader, dif_pos hpos]
  split
  · rename_i heq
    rw [hread] at heq
    cases heq
  · rename_i heq
    rw [hread] at heq
    cases heq
    rfl

/-- What a reader returns together with an error is dropped. -/
theorem bulkLoop_readError {err : Err} (hpos : 0 < left)
    (hread : r.read (emptyBuffer chunkSize left) w.conn = (b, some err, r', conn)) :
    bulkLoop chunkSize left r w = some (0, some err, {w with conn := conn}) := by
  rw [bulkLoop, dif_pos hpos]
  split
  · rename_i heq
    rw [hread] at heq
    cases heq
    rfl
  · rename_i heq
    rw [hread] at heq
    cases heq

end

/-- `writeBulk`; a body that is asked of no reader crashes. -/
def writeBulk (e : Encoder) (m : Message) : Step World :=
  match m.reader with
  | some r => bulkLoop e.chunkSize.toInt m.runLength.toInt r
  | none => if 0 < m.runLength.toInt then .crash else write eol

/-- The text of a simple message; an `Error` without its error crashes. -/
def simpleToByte (fl : Floats) (m : Message) : Option (Except Err Bytes) :=
  match Kind.ofByte m.kind with
  | some .simpleString => some (.ok (m.simpleString ++ eol))
  | some .int => some (.ok (formatInt m.int.toInt ++ eol))
  | some .bool => some (.ok (formatBool m.bool ++ eol))
  | some .error =>
    match m.error with
    | some msg => some (.error (.text (ascii "empty Error field for Error type message -" ++ msg)))
    | none => none
  | some .double => some (.ok (fl.format m.double ++ eol))
  | some .bigNumber => some (.ok ((m.bigNumber.map formatInt).getD (ascii "<nil>") ++ eol))
  | _ => some (.ok eol)

def encodeSimple (fl : Floats) (m : Message) : Step World :=
  match simpleToByte fl m with
  | none => .crash
  | some (.error err) => .fail err
  | some (.ok body) => write body

/-- `Encode` of the zero message, the only one that `Iterate` yields. -/
def encodeZero : Step World := write [0]

/-- Ranging over `Iterate` on the connection. -/
def encodeConnSeq (fl : Floats) : Step World := fun w =>
  let y := iterate fl w.conn
  match y.err with
  | some err => some (0, some err, {w with conn := y.rest})
  | none => encodeZero {w with conn := y.rest}

/-- Ranging over the pairs of `Iterate` on the connection: the error that comes with
a pair is overwritten. -/
def encodeConnAssoc (fl : Floats) : Step World := fun w =>
  let y := iterate fl w.conn
  let kvs := chunk (({} : Message), ({} : Message)) false [(y.msg, y.err)]
  kvs.foldr (fun _ rest => (encodeZero.andThen encodeZero).andThen rest) Step.skip {w with conn := y.rest}

section
variable (fl : Floats) (e : Encoder)

mutual

def encode : Message → Step World
  | m@⟨kind, _, _, _, _, _, _, _, runLength, _, encoding, seq, assoc⟩ =>
    (write [kind]).andThen <|
      match Kind.ofByte kind with
      | none => .skip
      | some k =>
        match k.category with
        | .simple => encodeSimple fl m
        | .aggregate =>
          (write (formatInt runLength.toInt)).andThen <| (write eol).andThen <|
            (if k = .verbatimString then (write encoding.bytes).andThen (write eol) else .skip).andThen <|
              match k with
              | .bulkString | .bulkError | .verbatimString => writeBulk e m
              | .array | .push | .set => encodeSeq seq
              | .map | .attribute => encodeAssoc assoc
              | _ => .skip

/-- Ranging over no iterator at all crashes. -/
def encodeSeq : Option (Feed Message) → Step World
  | none => .crash
  | some .conn => encodeConnSeq fl
  | some (.items xs) => encodeItems xs

def encodeItems : List (Message × Option Err) → Step World
  | [] => .skip
  | (_, some err) :: _ => .fail err
  | (msg, none) :: rest => (encode msg).andThen (encodeItems rest)

def encodeAssoc : Option (Feed (Message × Message)) → Step World
  | none => .crash
  | some .conn => encodeConnAssoc fl
  | some (.items kvs) => encodePairs kvs

/-- The error that comes with a pair is overwritten by the one of its first half. -/
def encodePairs : List ((Message × Message) × Option Err) → Step World
  | [] => .skip
  | ((k, v), _) :: rest => (encode k).andThen ((encode v).andThen (encodePairs rest))

end

end

end AnarchoRedis.Protocol
