import AnarchoRedis.Protocol.Delivery

/-! The greeting of the leader, byte by byte.

`startReplication` sends `PING`, `REPLCONF` and `PSYNC`, each by a `RoundTrip`, which
writes the request, flushes, and reads one message of the leader. `Decode` does not
return what it has read but goes on to the next message, so a leader that answers with
status lines, as they all are, is read to the end of its stream: `startReplication`
returns its end as an error, and `REPLCONF` and `PSYNC` are never sent
(`greeting_stops_at_ping`). -/
namespace AnarchoRedis.Replication
open Base Protocol

section
variable (fl : Floats) (e : Encoder)

/-- `RoundTrip` on the connection: the error, and the connection after it. The error of
the flush is dropped. -/
def roundTrip (msg : Message) (w : World) : Option (Option Err × World) :=
  match encode fl e msg w with
  | none => none
  | some (_, some err, w) => some (some err, w)
  | some (_, none, w) =>
    let (_, err, rest) := decode fl w.conn
    some (err, {w with conn := rest})

/-- One `RoundTrip` after the other, until one fails. -/
def roundTrips : List Message → World → Option (Option Err × World)
  | [], w => some (none, w)
  | msg :: rest, w =>
    match roundTrip fl e msg w with
    | none => none
    | some (some err, w) => some (some err, w)
    | some (none, w) => roundTrips rest w

def ping : Message := newOutgoingCommand [ascii "PING"]

def psync (replicationID : Bytes) (offset : Int64) : Message :=
  newOutgoingCommand [ascii "PSYNC", replicationID, formatInt offset.toInt]

def replconf (myHost myPort : Bytes) (snapshotOnly : Bool) : Message :=
  newOutgoingCommand ([ascii "REPLCONF", ascii "listening-port", myPort, ascii "ip-address", myHost, ascii "capa",
    ascii "psync2"] ++ if snapshotOnly then [ascii "snapshot-only", ascii "1"] else [])

/-- `startReplication`, once the leader is dialed and the own address split. -/
def startReplication (myHost myPort replicationID : Bytes) (offset : Int64) (snapshotOnly : Bool) :
    World → Option (Option Err × World) :=
  roundTrips fl e [ping, replconf myHost myPort snapshotOnly, psync replicationID offset]

end

/-! ### Status lines -/

/-- Status replies, one after the other. -/
def statusLines (lines : List Bytes) : Bytes := lines.flatMap fun line => Kind.simpleString.byte :: (line ++ eol)

theorem statusLines_cons (line : Bytes) (lines : List Bytes) :
    statusLines (line :: lines) = Kind.simpleString.byte :: (line ++ (eol ++ statusLines lines)) := by
  rw [statusLines, List.flatMap_cons, List.cons_append, List.append_assoc]
  rfl

section
variable {fl : Floats} {src : Source}

/-- `Iterate` goes on past a status line. -/
theorem iterate_status {line t : Bytes} (hline : ReadsLine line) (hplain : src.Plain)
    (hbytes : src.bytes = Kind.simpleString.byte :: (line ++ (eol ++ t))) :
    ∃ rest, rest.Plain ∧ rest.bytes = t ∧ iterate fl src = iterate fl rest := by
  have hskims : Skims fl src.bytes t := by
    rw [hbytes]
    exact .simple rfl hline rfl
  obtain ⟨m, rest, hpass, hrest, hplain'⟩ := iteratePass_skims hplain hskims
  exact ⟨rest, hplain', hrest, iterate_built hpass⟩

/-- An empty line with nothing after it is not found. -/
theorem iterate_lastEmpty (hplain : src.Plain) (hbytes : src.bytes = Kind.simpleString.byte :: eol) :
    (iterate fl src).err = some .eof := by
  obtain ⟨r, hr, hcalm, hpass⟩ := iteratePass_kind fl hplain hbytes
  have hfails : (simpleUnmarshal r).err = some .eof := by
    cases herr : (simpleUnmarshal r).err with
    | none =>
      have htakes := unmarshal_takes herr
      rw [hr, eol_length] at htakes
      omega
    | some err => rw [(unmarshalLoop_failed herr).2, hcalm.calm.failure]
  have hstop : iteratePass fl src = .stop (some .eof) (simpleUnmarshal r).rest := by
    rw [hpass, kindPass]
    simp only [Kind.category, simplePass, hfails]
  rw [iterate_stop hstop]

/-- `Decode` reads status lines to the end. An empty line is read together with the line
after it. -/
theorem decode_statusLines : ∀ {lines : List Bytes} {src : Source}, (∀ line ∈ lines, NoEol line) → src.Plain →
    src.bytes = statusLines lines → (iterate fl src).err = some .eof
  | [], src, _, hplain, hbytes => by rw [hplain.eq_nil hbytes, iterate_nil]
  | [[]], src, _, hplain, hbytes => iterate_lastEmpty hplain hbytes
  | [] :: next :: lines, src, hlines, hplain, hbytes => by
    have hnext : NoEol next := hlines next (List.mem_cons_of_mem _ List.mem_cons_self)
    have hline : ReadsLine (eol ++ Kind.simpleString.byte :: next) := by
      refine ⟨List.cons_ne_nil _ _, ⟨by decide, ?_⟩⟩
      cases next with
      | nil => trivial
      | cons c next => exact ⟨fun h => absurd h.1 (by decide), hnext⟩
    have hb : src.bytes = Kind.simpleString.byte :: (eol ++ Kind.simpleString.byte :: next ++
        (eol ++ statusLines lines)) := by
      rw [hbytes, statusLines_cons, statusLines_cons, List.append_assoc]
      rfl
    obtain ⟨rest, hplain', hrest, hiterate⟩ := iterate_status hline hplain hb
    rw [hiterate]
    exact decode_statusLines (fun l hl => hlines l (List.mem_cons_of_mem _ (List.mem_cons_of_mem _ hl))) hplain' hrest
  | (c :: line) :: lines, src, hlines, hplain, hbytes => by
    rw [statusLines_cons] at hbytes
    have hline := readsLine_of_noEol (hlines _ List.mem_cons_self) (List.cons_ne_nil c line)
    obtain ⟨rest, hplain', hrest, hiterate⟩ := iterate_status hline hplain hbytes
    rw [hiterate]
    exact decode_statusLines (fun l hl => hlines l (List.mem_cons_of_mem _ hl)) hplain' hrest

end

/-- A `RoundTrip` on a connection that can be written to sends the request, and ends as
the decoding does. -/
theorem roundTrip_sends (fl : Floats) (e : Encoder) {v : Value} {msg : Message} (hmsg : Built v msg) {w : World}
    (hout : w.out.faults = []) :
    roundTrip fl e msg w = some ((decode fl w.conn).2.1, {w.emit (wire v) with conn := (decode fl w.conn).2.2}) := by
  have hencode : encode fl e msg w = some ((wire v).length, none, w.emit (wire v)) := encode_writes fl e v msg hmsg w hout
  rw [roundTrip, hencode]
  rfl

/-- **The greeting stops at `PING`.** To a leader that answers with status lines, empty
ones among them, nothing else is ever sent, and `startReplication` returns the end of its
stream as an error. -/
theorem greeting_stops_at_ping (fl : Floats) (e : Encoder) (myHost myPort replicationID : Bytes) (offset : Int64)
    (snapshotOnly : Bool) {lines : List Bytes} (hlines : ∀ line ∈ lines, NoEol line) {w : World}
    (hplain : w.conn.Plain) (hbytes : w.conn.bytes = statusLines lines) (hout : w.out.faults = []) :
    ∃ w', startReplication fl e myHost myPort replicationID offset snapshotOnly w = some (some .eof, w') ∧
      w'.out.out = w.out.out ++ ascii "*1\r\n$4\r\nPING\r\n" := by
  have hping : Built (.seq .array ([ascii "PING"].map (.bulk .string))) ping :=
    @built_newOutgoingCommand [ascii "PING"] (by decide) (by decide)
  have hwire : wire (.seq .array ([ascii "PING"].map (.bulk .string))) = ascii "*1\r\n$4\r\nPING\r\n" := rfl
  have htrip := roundTrip_sends fl e hping hout
  have hend : (decode fl w.conn).2.1 = some .eof := decode_statusLines hlines hplain hbytes
  rw [hend, hwire] at htrip
  rw [startReplication, roundTrips, htrip]
  exact ⟨_, rfl, rfl⟩

/-- A leader that says `PONG`, answers `REPLCONF` with an empty line and starts a full
resynchronization. -/
theorem greeting_stops_at_ping_pong : ∃ w', startReplication noFloats {} (ascii "h") (ascii "1") (ascii "?") 0 false
      ⟨[⟨ascii "+PONG\r\n+\r\n+FULLRESYNC a 0\r\n", none⟩], ⟨[], []⟩⟩ = some (some .eof, w') ∧
    w'.out.out = ascii "*1\r\n$4\r\nPING\r\n" :=
  @greeting_stops_at_ping noFloats {} _ _ _ _ _ [ascii "PONG", [], ascii "FULLRESYNC a 0"] (by decide) _
    Source.plain_singleton rfl rfl

end AnarchoRedis.Replication
