import AnarchoRedis.Base.Bytes

/-! The table of known commands: how each one's keys are found among its
arguments, and the categories it is filed under. A command is a write when its
categories say so; a command that is not in the table is no write. -/
namespace AnarchoRedis.Protocol
open Base

/-- The key functions the table refers to. -/
inductive KeysFunc where
  | noKeysFunc
  | firstArgKeyFunc
  | oddIndices
  | allArgs
  /-- The function literal of `LCS`: the first two arguments. -/
  | firstTwo
  deriving DecidableEq, Repr

structure CommandSpecification where
  keys : KeysFunc
  categories : List String
  deriving DecidableEq, Repr

def cmdSpec : List (String × CommandSpecification) :=
  [ -- connection
    ("SELECT", ⟨.noKeysFunc, ["fast", "connection"]⟩),
    -- keyspace
    ("UNLINK", ⟨.allArgs, ["keyspace", "write", "fast"]⟩),
    ("FLUSHALL", ⟨.noKeysFunc, ["keyspace", "write", "slow", "dangerous"]⟩),
    -- strings
    ("APPEND", ⟨.firstArgKeyFunc, ["write", "string", "fast"]⟩),
    ("DECR", ⟨.firstArgKeyFunc, ["write", "string", "fast"]⟩),
    ("DECRBY", ⟨.firstArgKeyFunc, ["write", "string", "fast"]⟩),
    ("GET", ⟨.firstArgKeyFunc, ["read", "string", "fast"]⟩),
    ("GETDEL", ⟨.firstArgKeyFunc, ["write", "string", "fast"]⟩),
    ("GETEX", ⟨.firstArgKeyFunc, ["write", "string", "fast"]⟩),
    ("GETRANGE", ⟨.firstArgKeyFunc, ["read", "string", "slow"]⟩),
    ("GETSET", ⟨.firstArgKeyFunc, ["write", "string", "fast"]⟩),
    ("INCR", ⟨.firstArgKeyFunc, ["write", "string", "fast"]⟩),
    ("INCRBY", ⟨.firstArgKeyFunc, ["write", "string", "fast"]⟩),
    ("INCRBYFLOAT", ⟨.firstArgKeyFunc, ["write", "string", "fast"]⟩),
    ("LCS", ⟨.firstTwo, ["read", "string", "slow"]⟩),
    ("MGET", ⟨.allArgs, ["read", "string", "fast"]⟩),
    ("MSET", ⟨.oddIndices, ["write", "string", "fast"]⟩),
    ("MSETNX", ⟨.oddIndices, ["write", "string", "fast"]⟩),
    ("SET", ⟨.firstArgKeyFunc, ["write", "string", "fast"]⟩),
    ("SETRANGE", ⟨.firstArgKeyFunc, ["write", "string", "fast"]⟩),
    ("STRLEN", ⟨.firstArgKeyFunc, ["read", "string", "fast"]⟩),
    -- sets
    ("SADD", ⟨.firstArgKeyFunc, ["write", "set", "fast"]⟩),
    ("SREM", ⟨.firstArgKeyFunc, ["write", "set", "fast"]⟩),
    -- sorted sets
    ("ZADD", ⟨.firstArgKeyFunc, ["write", "sortedset", "fast"]⟩) ]

/-- `cmdSpec[name]`; names are the bytes the client sent, upper-cased. -/
def specification (name : Bytes) : Option CommandSpecification :=
  (cmdSpec.find? fun entry => ascii entry.1 == name).map Prod.snd

/-- Whether the command would result in a write if executed. A name without an
entry gives the zero specification, which has no categories. -/
def isWrite (name : Bytes) : Bool :=
  match specification name with
  | none => false
  | some spec => spec.categories.contains "write"

end AnarchoRedis.Protocol
