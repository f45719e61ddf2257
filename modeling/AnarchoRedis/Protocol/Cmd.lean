import AnarchoRedis.Protocol.Body
import AnarchoRedis.Protocol.Wire

/-! Parsing a command.

`Cmd` goes through the elements of an array with a counter: the first is the name, the
second may belong to it, the others are the arguments. The counter is one when the
first element is looked at, so that the branch that takes the name is never entered. The
name of every command stays empty (`cmd_name`), and its arguments are all the elements,
the first of them used up (`not_parses`). -/
namespace AnarchoRedis.Protocol
open Base

/-! ### Outgoing commands -/

/-- `bytes.NewBufferString`. -/
def newBufferString (s : Bytes) : Source := if s = [] then [] else [⟨s, none⟩]

def newBulkString (s : Bytes) : Message := .ofBulkString (newBufferString s) (Int64.ofNat s.length)

def newOutgoingCommand (args : List Bytes) : Message := .ofArray (args.map newBulkString)

theorem plain_newBufferString (s : Bytes) : (newBufferString s).Plain ∧ (newBufferString s).bytes = s := by
  unfold newBufferString
  split
  · rename_i hnil
    exact ⟨Source.plain_nil, hnil.symm⟩
  · rename_i hne
    obtain ⟨b, bs, rfl⟩ := List.exists_cons_of_ne_nil hne
    exact ⟨Source.plain_singleton, by simp [Source.bytes]⟩

theorem built_newBulkString {s : Bytes} (h : s.length < 2 ^ 63) : Built (.bulk .string s) (newBulkString s) := by
  obtain ⟨hplain, hbytes⟩ := plain_newBufferString s
  rw [Built, BuiltWith]
  exact ⟨_, _, ⟨hplain.calm, hbytes, toInt_ofNat h⟩, rfl⟩

theorem builtSeq_newBulkString {args : List Bytes} (h : ∀ a ∈ args, a.length < 2 ^ 63) :
    BuiltSeq (args.map (.bulk .string)) (args.map newBulkString) := by
  induction args with
  | nil => rfl
  | cons a args ih =>
    rw [List.map_cons, List.map_cons, BuiltSeq, BuiltSeqWith]
    exact ⟨_, _, built_newBulkString (h a List.mem_cons_self), ih fun b hb => h b (List.mem_cons_of_mem a hb), rfl⟩

/-- The message of a command says its strings. -/
theorem built_newOutgoingCommand {args : List Bytes} (h : ∀ a ∈ args, a.length < 2 ^ 63) (hfew : args.length < 2 ^ 63) :
    Built (.seq .array (args.map (.bulk .string))) (newOutgoingCommand args) := by
  rw [Built, BuiltWith]
  exact ⟨_, builtSeq_newBulkString h, by rwa [List.length_map], rfl⟩

/-! ### Names -/

/-- `commandsWithoutKey[name]`. -/
def commandsWithoutKey (name : Bytes) : Bool :=
  ["FLUSHALL", "FLUSHDB", "SELECT", "FUNCTION", "CLIENT", "CLUSTER", "ACL", "COMMAND", "CONFIG", "PING"].any
    (ascii · == name)

/-- `commandsWithSubOp[name]`. -/
def commandsWithSubOp (name : Bytes) : Bool :=
  ["BITOP", "FUNCTION", "SCRIPT", "CLIENT", "CLUSTER", "ACL", "COMMAND", "CONFIG"].any (ascii · == name)

/-- The upper case of texts that are not ASCII, which is the standard library's. -/
structure Letters where
  upper : Bytes → Bytes

/-- Leaves every letter as it is. -/
def noLetters : Letters := ⟨id⟩

/-- `strings.ToUpper`. -/
def toUpper (u : Letters) (s : Bytes) : Bytes :=
  if s.all (· < 128) then s.map fun c => if 97 ≤ c ∧ c ≤ 122 then c - 32 else c else u.upper s

/-- `Humanize`, for the messages of errors. -/
def humanize (indicator : UInt8) : Bytes :=
  ascii <| match Kind.ofByte indicator with
    | some .simpleString => "SimpleString"
    | some .error => "Error"
    | some .int => "Int"
    | some .bulkString => "Bulk"
    | some .array => "Seq"
    | some .null => "Null"
    | some .bool => "Bool"
    | some .double => "Double"
    | some .bigNumber => "BigNumber"
    | some .verbatimString => "VerbatimString"
    | some .map => "Assoc"
    | some .attribute => "Attribute"
    | some .set => "Set"
    | some .push => "Push"
    | some .bulkError | none => "Unknown"

/-- An error that wraps `ErrInvalidCommand`. -/
def invalidCommand (rest : Bytes) : Err := .text (ascii "invalid command" ++ rest)

/-! ### Commands -/

structure Command where
  name : Bytes := []
  /-- Nil until it is set. -/
  args : Option (Feed Message) := none
  /-- The original message. -/
  message : Message

/-- The strings that the arguments yield. -/
def Command.yields (fl : Floats) (conn : Source) (c : Command) : Option (List Bytes) :=
  (elements fl conn c.args).bind fun x => bodies x.2 x.1

/-- The branch of `Cmd` that takes the name. -/
def commandName (u : Letters) (msg : Message) (all : Bytes) : Except Err Bytes :=
  let name := toUpper u all
  if name = [] then .error (invalidCommand (ascii "; expected non-empty string for command name"))
  else if commandsWithoutKey name ∧ 2 < msg.runLength.toInt then
    .error (invalidCommand (ascii "; expected at least two elements for command " ++ name ++ ascii " got " ++
      formatInt msg.runLength.toInt))
  else .ok name

/-- What the loop of `Cmd` has come to: the name, whether `Args` has been set, the
elements with their readers as they are then, and the connection. -/
structure Parsed where
  result : Except Err (Bytes × Bool)
  elements : List (Message × Option Err)
  conn : Source

/-- The loop of `Cmd`, with the counter before the element is counted. -/
def cmdLoop (u : Letters) (msg : Message) (i : Nat) (name : Bytes) (set : Bool) (conn : Source) :
    List (Message × Option Err) → Option Parsed
  | [] => some ⟨.ok (name, set), [], conn⟩
  | (arg, some err) :: rest => some ⟨.error err, (arg, some err) :: rest, conn⟩
  | (arg, none) :: rest =>
    let i := i + 1
    if arg.kind ≠ Kind.bulkString.byte then
      some ⟨.error (invalidCommand (ascii "; expected Bulk for " ++ formatNat i ++
        ascii "-th element of message, string got " ++ humanize arg.kind)), (arg, none) :: rest, conn⟩
    else
      match arg.readAll conn with
      | none => none
      | some ((_, some err), arg, conn) => some ⟨.error err, (arg, none) :: rest, conn⟩
      | some ((all, none), arg, conn) =>
        match if i = 0 then (commandName u msg all).map (·, true) else .ok (name, set) with
        | .error err => some ⟨.error err, (arg, none) :: rest, conn⟩
        | .ok (name, set) =>
          if !commandsWithSubOp name then some ⟨.ok (name, true), (arg, none) :: rest, conn⟩
          else if i = 1 then
            if msg.runLength.toInt < 3 then
              some ⟨.error (invalidCommand (ascii "; expected at least three elements for command " ++ name ++
                ascii " got " ++ formatInt msg.runLength.toInt)), (arg, none) :: rest, conn⟩
            else
              match arg.readAll conn with
              | none => none
              | some ((_, some err), arg, conn) => some ⟨.error err, (arg, none) :: rest, conn⟩
              | some ((readAll, none), arg, conn) =>
                (cmdLoop u msg i (name ++ ascii " " ++ toUpper u readAll) true conn rest).map fun p =>
                  {p with elements := (arg, none) :: p.elements}
          else
            (cmdLoop u msg i name set conn rest).map fun p => {p with elements := (arg, none) :: p.elements}

/-- `Cmd`, and the message and the connection after it. The arguments are the message's
own elements: what is read of them is read of the message. -/
def cmd (fl : Floats) (u : Letters) (msg : Message) (conn : Source) :
    Option (Except Err Command × Message × Source) :=
  if msg.kind ≠ Kind.array.byte then
    some (.error (invalidCommand (ascii "; expected array got " ++ humanize msg.kind)), msg, conn)
  else
    match elements fl conn msg.seq with
    | none => none
    | some (xs, conn) =>
      (cmdLoop u msg 0 [] false conn xs).map fun p =>
        let msg := {msg with seq := moved msg.seq p.elements}
        (p.result.map fun x => {name := x.1, args := if x.2 then msg.seq else none, message := msg}, msg, p.conn)

/-! ### What comes of it -/

/-- The loop ends at the first element: one is not zero, and the empty name has no second
part. -/
theorem cmdLoop_cons {u : Letters} {msg arg arg' : Message} {conn conn' : Source} {all : Bytes}
    (rest : List (Message × Option Err)) (hkind : arg.kind = Kind.bulkString.byte)
    (hread : arg.readAll conn = some ((all, none), arg', conn')) :
    cmdLoop u msg 0 [] false conn ((arg, none) :: rest) = some ⟨.ok ([], true), (arg', none) :: rest, conn'⟩ := by
  rw [cmdLoop, if_neg (not_not.mpr hkind), hread]
  dsimp only
  rw [if_neg (by omega)]
  dsimp only
  rw [if_pos (by decide)]

/-- A command that is returned has the empty name, and all the elements for arguments. -/
theorem cmdLoop_first {u : Letters} {msg : Message} {conn : Source} {x : Message × Option Err}
    {xs : List (Message × Option Err)} {p : Parsed} {name : Bytes} {set : Bool}
    (h : cmdLoop u msg 0 [] false conn (x :: xs) = some p) (hp : p.result = .ok (name, set)) :
    name = [] ∧ set = true ∧ ∃ arg, p.elements = (arg, none) :: xs := by
  obtain ⟨arg, _ | err⟩ := x
  · by_cases hkind : arg.kind = Kind.bulkString.byte
    · rcases hread : arg.readAll conn with _ | ⟨⟨all, err⟩, arg', conn'⟩
      · rw [cmdLoop, if_neg (not_not.mpr hkind), hread] at h
        cases h
      · cases Message.readAll_noError hread
        rw [cmdLoop_cons xs hkind hread] at h
        cases h
        cases hp
        exact ⟨rfl, rfl, arg', rfl⟩
    · rw [cmdLoop, if_pos hkind] at h
      cases h
      cases hp
  · rw [cmdLoop] at h
    cases h
    cases hp

/-- **The name of a command is empty**, whatever the message. -/
theorem cmd_name {fl : Floats} {u : Letters} {msg msg' : Message} {conn conn' : Source} {c : Command}
    (h : cmd fl u msg conn = some (.ok c, msg', conn')) : c.name = [] := by
  unfold cmd at h
  split at h
  · cases h
  · split at h
    · cases h
    · rename_i xs conn₁ hxs
      obtain ⟨p, hloop, hr⟩ := Option.map_eq_some_iff.mp h
      rw [Prod.mk.injEq] at hr
      rcases hp : p.result with err | ⟨name, set⟩
      · rw [hp] at hr
        cases hr.1
      · rw [hp] at hr
        have hname : c.name = name := by
          cases hr.1
          rfl
        rw [hname]
        cases xs with
        | nil =>
          cases hloop
          cases hp
          rfl
        | cons x xs => exact (cmdLoop_first hloop hp).1

/-- The name and the arguments that a list of strings stands for: the second string
belongs to the name of a command with sub-operations. -/
def parseOf (u : Letters) (a0 : Bytes) (args : List Bytes) : Option (Bytes × List Bytes) :=
  if commandsWithSubOp (toUpper u a0) then
    match args with
    | a1 :: a2 :: rest => some (toUpper u a0 ++ ascii " " ++ toUpper u a1, a2 :: rest)
    | _ => none
  else some (toUpper u a0, args)

/-- `Cmd` returns a command of this name, whose arguments yield these strings. -/
def Parses (fl : Floats) (u : Letters) (msg : Message) (conn : Source) (name : Bytes) (args : List Bytes) : Prop :=
  ∃ c msg' conn', cmd fl u msg conn = some (.ok c, msg', conn') ∧ c.name = name ∧ c.yields fl conn' = some args

theorem parseOf_length {u : Letters} {a0 name : Bytes} {args rest : List Bytes}
    (h : parseOf u a0 args = some (name, rest)) : rest.length ≤ args.length := by
  unfold parseOf at h
  split at h
  · split at h
    · cases h
      simp only [List.length_cons]
      omega
    · cases h
  · cases h
    exact le_rfl

/-- The arguments are as many as the elements. -/
theorem cmd_yields {fl : Floats} {u : Letters} {msg msg' : Message} {conn conn' : Source} {c : Command}
    {x : Message × Option Err} {xs : List (Message × Option Err)} {bs : List Bytes}
    (hseq : msg.seq = some (.items (x :: xs))) (h : cmd fl u msg conn = some (.ok c, msg', conn'))
    (hbs : c.yields fl conn' = some bs) : bs.length = xs.length + 1 := by
  unfold cmd at h
  split at h
  · cases h
  · rw [hseq, elements] at h
    obtain ⟨p, hloop, hr⟩ := Option.map_eq_some_iff.mp h
    rw [Prod.mk.injEq] at hr
    rcases hp : p.result with err | ⟨name, set⟩
    · rw [hp] at hr
      cases hr.1
    · obtain ⟨rfl, rfl, arg, harg⟩ := cmdLoop_first hloop hp
      have hargs : c.args = some (.items ((arg, none) :: xs)) := by
        rw [hp] at hr
        cases hr.1
        show some (Feed.items p.elements) = _
        rw [harg]
      rw [Command.yields, hargs, elements, Option.bind_some] at hbs
      exact bodies_length hbs

/-- **No array of strings is parsed into its name and its arguments.** -/
theorem not_parses (fl : Floats) (u : Letters) {a0 name : Bytes} {args rest : List Bytes} {msg : Message}
    (conn : Source) (hmsg : Built (.seq .array ((a0 :: args).map (.bulk .string))) msg)
    (hparse : parseOf u a0 args = some (name, rest)) : ¬ Parses fl u msg conn name rest := by
  rintro ⟨c, msg', conn', hcmd, -, hyields⟩
  rw [Built, BuiltWith] at hmsg
  obtain ⟨ms, hms, -, rfl⟩ := hmsg
  have hlen := hms.length
  cases ms with
  | nil => cases hlen
  | cons m ms =>
    have hcount := cmd_yields rfl hcmd hyields
    have hrest := parseOf_length hparse
    simp only [List.length_map, List.length_cons] at hlen hcount
    omega

/-- `GET k`. -/
def getMessage : Message := newOutgoingCommand [ascii "GET", ascii "k"]

theorem getMessage_built : Built (.seq .array ((ascii "GET" :: [ascii "k"]).map (.bulk .string))) getMessage :=
  built_newOutgoingCommand (by decide) (by decide)

theorem not_parses_get : ¬ Parses noFloats noLetters getMessage [] (ascii "GET") [ascii "k"] :=
  not_parses noFloats noLetters [] getMessage_built (by decide)

/-- **`Cmd` does not parse `GET k`**: the name it returns is empty. -/
theorem not_parsed : ¬ ∀ (fl : Floats) (u : Letters) (a0 name : Bytes) (args rest : List Bytes) (msg : Message)
    (conn : Source), Built (.seq .array ((a0 :: args).map (.bulk .string))) msg → a0 ≠ [] →
    parseOf u a0 args = some (name, rest) → Parses fl u msg conn name rest := by
  intro hall
  obtain ⟨c, msg', conn', hcmd, hname, -⟩ := hall noFloats noLetters (ascii "GET") (ascii "GET") [ascii "k"] [ascii "k"]
    getMessage [] getMessage_built (by decide) (by decide)
  rw [cmd_name hcmd] at hname
  exact absurd hname (by decide)

end AnarchoRedis.Protocol
