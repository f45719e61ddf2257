import AnarchoRedis.Base.Stream

/-! Messages of the wire protocol, and the functions that build them.

A `Message` is Go's struct: its kind says which of the fields count. A body is
read from a reader, either the message's own or a limited view of the connection
the header came from. Children come from an iterator: a list of what it yields,
or `Iterate` on the connection. -/
namespace AnarchoRedis.Protocol
open Base

inductive Kind where
  | simpleString | error | int | bulkString | array | null | bool | double | bigNumber | bulkError
  | verbatimString | map | attribute | set | push
  deriving DecidableEq

/-- The byte a kind is on the wire. -/
def Kind.byte : Kind → UInt8
  | .simpleString => 43
  | .error => 45
  | .int => 58
  | .bulkString => 36
  | .array => 42
  | .null => 95
  | .bool => 35
  | .double => 44
  | .bigNumber => 40
  | .bulkError => 33
  | .verbatimString => 61
  | .map => 37
  | .attribute => 96
  | .set => 126
  | .push => 62

def Kind.all : List Kind :=
  [.simpleString, .error, .int, .bulkString, .array, .null, .bool, .double, .bigNumber, .bulkError,
    .verbatimString, .map, .attribute, .set, .push]

/-- The kind a byte stands for, if any. -/
def Kind.ofByte (b : UInt8) : Option Kind := Kind.all.find? fun k => k.byte == b

inductive Category where
  | simple
  | aggregate
  deriving DecidableEq

def Kind.category : Kind → Category
  | .simpleString | .error | .int | .null | .bool | .double | .bigNumber => .simple
  | .array | .set | .push | .bulkString | .bulkError | .verbatimString | .map | .attribute => .aggregate

@[simp] theorem Kind.ofByte_byte (k : Kind) : Kind.ofByte k.byte = some k := by
  cases k <;> decide

theorem Kind.byte_ne_zero (k : Kind) : k.byte ≠ 0 := by
  cases k <;> decide

theorem Kind.byte_injective : Function.Injective Kind.byte := by
  intro a b h
  have := Kind.ofByte_byte a
  rw [h, Kind.ofByte_byte] at this
  exact (Option.some.inj this).symm

/-- Where a body is read from. -/
inductive Reader where
  /-- A reader of the message's own. -/
  | own (source : Source)
  /-- `io.LimitReader` on the connection, with the bytes it may still take. -/
  | limit (left : Int)

/-- What an iterator yields. -/
inductive Feed (α : Type) where
  /-- These, each with an error or none. -/
  | items (xs : List (α × Option Err))
  /-- What `Iterate` yields on the connection. -/
  | conn

/-- The three bytes that name the encoding of a verbatim string. -/
structure Encoding where
  first : UInt8
  second : UInt8
  third : UInt8
  deriving DecidableEq

def Encoding.bytes (e : Encoding) : Bytes := [e.first, e.second, e.third]

structure Message where
  /-- Zero when nothing has set it. -/
  kind : UInt8 := 0
  simpleString : Bytes := []
  /-- The text of the error. -/
  error : Option Bytes := none
  int : Int64 := 0
  bool : Bool := false
  /-- The bits of the number. -/
  double : UInt64 := 0
  bigNumber : Option Int := none
  totalMessageSize : Int64 := 0
  runLength : Int64 := 0
  reader : Option Reader := none
  encoding : Encoding := ⟨0, 0, 0⟩
  seq : Option (Feed Message) := none
  assoc : Option (Feed (Message × Message)) := none

namespace Message

def ofSimpleString (s : Bytes) : Message := {kind := Kind.simpleString.byte, simpleString := s}

def ofError (s : Bytes) : Message := {kind := Kind.error.byte, error := some s}

def ofNull : Message := {kind := Kind.null.byte}

def ofInt (i : Int64) : Message := {kind := Kind.int.byte, int := i}

def ofBool (b : Bool) : Message := {kind := Kind.bool.byte, bool := b}

def ofDouble (f : UInt64) : Message := {kind := Kind.double.byte, double := f}

def ofBigNumber (b : Int) : Message := {kind := Kind.bigNumber.byte, bigNumber := some b}

def ofBulkString (s : Source) (runLength : Int64) : Message :=
  {kind := Kind.bulkString.byte, reader := some (.own s), runLength := runLength}

def ofBulkError (s : Source) (runLength : Int64) : Message :=
  {kind := Kind.bulkError.byte, reader := some (.own s), runLength := runLength}

def ofVerbatimString (s : Source) (runLength : Int64) (encoding : Encoding) : Message :=
  {kind := Kind.verbatimString.byte, reader := some (.own s), runLength := runLength, encoding := encoding}

/-- What the iterators of the constructors yield: each element, and no error. -/
def yields {α : Type} (xs : List α) : Feed α := .items (xs.map fun x => (x, none))

def ofArray (arrs : List Message) : Message :=
  {kind := Kind.array.byte, seq := some (yields arrs), runLength := Int64.ofNat arrs.length}

def ofSet (arrs : List Message) : Message :=
  {kind := Kind.set.byte, seq := some (yields arrs), runLength := Int64.ofNat arrs.length}

/-- A list taken two by two; an odd one has no result. -/
def pairs {α : Type} : List α → Option (List (α × α))
  | [] => some []
  | [_] => none
  | k :: v :: rest => (pairs rest).map ((k, v) :: ·)

/-- `Map`, which crashes on an odd number of arguments. -/
def ofMap (kvs : List Message) : Option Message :=
  (pairs kvs).map fun ps =>
    {kind := Kind.map.byte, assoc := some (yields ps), runLength := Int64.ofNat (kvs.length / 2)}

end Message

end AnarchoRedis.Protocol
