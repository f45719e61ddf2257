import AnarchoRedis.Protocol.Reuse

/-! Requests and replies on a client's connection.

`proxy` forwards a request to the leader, reads the reply, and only then parses the
request. What cannot be parsed is to be answered with an error, which `Encode` does not
write; and before the reply of anything else is written its keys are asked for, which
fails for a command that is not in the table. So a run of `proxy` that returns without an
error has parsed the request into a command of the table (`proxy_known`). As `Cmd` leaves
every name empty there is none: the first request ends the connection, whatever it is
(`serves_iff`), after the leader has executed it (`serve_executes`). -/
namespace AnarchoRedis.Protocol
open Base

/-- A request as `connection.Read` returns it and the leader's reply as `upstream.Read`
returns it, each with what is left on its connection then. -/
structure Exchange where
  req : Message
  reqRest : Source
  resp : Message
  respRest : Source

structure Conns where
  database : Bytes := ascii "0"
  toLeader : Writer := ⟨[], []⟩
  toClient : Writer := ⟨[], []⟩
  /-- Replies that are written and not flushed. -/
  written : List Message := []
  /-- Replies that the client has got. -/
  delivered : List Message := []

/-- `connection.Flush`. -/
def Conns.flush (s : Conns) : Conns := {s with written := [], delivered := s.delivered ++ s.written}

section
-- `errorText` is `Error()`, the text of an error.
variable (fl : Floats) (e : Encoder) (u : Letters) (errorText : Err → Bytes)

def newError (err : Err) : Message := .ofError (errorText err)

/-- `connection.Write` of a message that was read from `conn`. -/
def Conns.write (s : Conns) (m : Message) (conn : Source) : Option (Option Err × Conns) :=
  match encode fl e m ⟨conn, s.toClient⟩ with
  | none => none
  | some (_, some err, w) => some (some err, {s with toClient := w.out})
  | some (_, none, w) => some (none, {s with toClient := w.out, written := s.written ++ [m]})

/-- `LockKeys` or `AwaitUnlocked`, in which only `Keys` fails. What it has read of the
arguments is gone. -/
def storeCall (c : Command) (conn : Source) : Option (Option Err × Command × Source) :=
  (c.keys fl conn).map fun x => (x.1.err, {c with args := x.2.1}, x.2.2)

/-- The branch for `SELECT`; without an argument it crashes. -/
def storeDatabase (c : Command) (conn : Source) (s : Conns) : Option Conns :=
  if c.name = ascii "SELECT" then
    ((c.yields fl conn).bind List.head?).map fun db => {s with database := db}
  else some s

/-- `LockKeys`, of a write only. -/
def lockWrite (c : Command) (conn : Source) : Option (Option Err × Command × Source) :=
  if isWrite c.name then storeCall fl c conn else some (none, c, conn)

/-- `proxy` from where the request is parsed. -/
def proxyCommand (x : Exchange) (c : Command) (conn : Source) (s : Conns) : Option (Option Err × Conns) :=
  match storeDatabase fl c conn s with
  | none => none
  | some s =>
    match lockWrite fl c conn with
    | none => none
    | some (some err, _, _) => some (some err, s)
    | some (none, c, conn) =>
      match storeCall fl c conn with
      | none => none
      | some (some err, _, _) => some (some err, s)
      | some (none, _, _) =>
        match s.write fl e x.resp x.respRest with
        | none => none
        | some (some err, s) => some (some err, s)
        | some (none, s) => some (none, s.flush)

/-- One run of `proxy`: the error it returns, or a crash. Once an error has been written
for a request that `Cmd` rejects, the run goes on with the nil command. -/
def proxy (x : Exchange) (s : Conns) : Option (Option Err × Conns) :=
  match encode fl e x.req ⟨x.reqRest, s.toLeader⟩ with
  | none => none
  | some (_, some err, w) => some (some err, {s with toLeader := w.out})
  | some (_, none, w) =>
    match cmd fl u (encoded fl e x.req ⟨x.reqRest, s.toLeader⟩) w.conn with
    | none => none
    | some (.error err, _, _) =>
      match {s with toLeader := w.out}.write fl e (newError errorText err) [] with
      | none => none
      | some (some err, s) => some (some err, s)
      | some (none, _) => none
    | some (.ok c, _, conn) => proxyCommand fl e x c conn {s with toLeader := w.out}

/-- Runs of `proxy`, until one returns an error. -/
def serve : List Exchange → Conns → Option (Option Err × Conns)
  | [], s => some (none, s)
  | x :: rest, s =>
    match proxy fl e u errorText x s with
    | none => none
    | some (some err, s) => some (some err, s)
    | some (none, s) => serve rest s

/-- What the client is to get: an error where `Cmd` rejects the request, or the reply. -/
def Exchange.reply (x : Exchange) : Message :=
  match cmd fl u x.req x.reqRest with
  | some (.error err, _, _) => newError errorText err
  | _ => x.resp

/-- The connection stays open, and the client gets one reply to each request, in order. -/
def Serves (xs : List Exchange) (s : Conns) : Prop :=
  ∃ s', serve fl e u errorText xs s = some (none, s') ∧
    s'.delivered = s.delivered ++ xs.map (Exchange.reply fl u errorText)

end

section
variable {fl : Floats} {e : Encoder} {u : Letters} {errorText : Err → Bytes} {x : Exchange} {s s' : Conns}

/-- The keys of a command are found only if it is in the table. -/
theorem storeCall_known {c c' : Command} {conn conn' : Source} (h : storeCall fl c conn = some (none, c', conn')) :
    specification c.name ≠ none := by
  intro hnone
  rw [storeCall, Command.keys, hnone] at h
  cases h

theorem lockWrite_name {c c' : Command} {conn conn' : Source} (h : lockWrite fl c conn = some (none, c', conn')) :
    c'.name = c.name := by
  rw [lockWrite] at h
  split at h
  · obtain ⟨x, -, hx⟩ := Option.map_eq_some_iff.mp h
    rw [Prod.mk.injEq, Prod.mk.injEq] at hx
    rw [← hx.2.1]
  · cases h
    rfl

/-- A command that is answered is in the table. -/
theorem proxyCommand_known {c : Command} {conn : Source} (h : proxyCommand fl e x c conn s = some (none, s')) :
    specification c.name ≠ none := by
  unfold proxyCommand at h
  split at h
  · cases h
  · split at h
    · cases h
    · cases h
    · rename_i c' conn' hlock
      split at h
      · cases h
      · cases h
      · rename_i hawait
        rw [← lockWrite_name hlock]
        exact storeCall_known hawait

/-- **A run of `proxy` without an error has parsed its request into a command of the
table.** -/
theorem proxy_known (h : proxy fl e u errorText x s = some (none, s')) :
    ∃ m conn c m' conn', cmd fl u m conn = some (.ok c, m', conn') ∧ specification c.name ≠ none := by
  unfold proxy at h
  split at h
  · cases h
  · cases h
  · rename_i n w _
    split at h
    · cases h
    · split at h <;> cases h
    · rename_i c m' conn' hcmd
      exact ⟨_, _, c, m', conn', hcmd, proxyCommand_known h⟩

/-- No request is parsed into a command of the table. -/
theorem proxy_ne_nil : proxy fl e u errorText x s ≠ some (none, s') := by
  intro h
  obtain ⟨m, conn, c, m', conn', hcmd, hknown⟩ := proxy_known h
  rw [cmd_name hcmd] at hknown
  exact hknown (by decide)

theorem serve_cons (rest : List Exchange) : serve fl e u errorText (x :: rest) s = proxy fl e u errorText x s := by
  rw [serve]
  split
  · rename_i h
    rw [h]
  · rename_i h
    rw [h]
  · rename_i h
    exact absurd h proxy_ne_nil

end

/-! ### What becomes of a request -/

section
variable {fl : Floats} {e : Encoder} {u : Letters} {errorText : Err → Bytes}

theorem encoded_kind (m : Message) (w : World) : (encoded fl e m w).kind = m.kind := by
  unfold encoded
  split <;> rfl

/-- `Encode` begins to write an error, and fails. -/
theorem encode_newError (fl : Floats) (e : Encoder) (errorText : Err → Bytes) (cause : Err) {w : World}
    (hw : w.out.faults = []) : ∃ err, encode fl e (newError errorText cause) w = some (1, some err, w.emit [45]) := by
  have hwrite : write [Kind.error.byte] w = some (1, none, w.emit [45]) := writes_write [45] w hw
  rw [newError, Message.ofError, encode, Step.andThen, hwrite, Kind.ofByte_byte]
  exact ⟨_, rfl⟩

theorem built_kind {v : Value} {m : Message} (h : Built v m) : m.kind = v.kind.byte := by
  cases v with
  | text | null | int | bool | bigNumber =>
    rw [Built, BuiltWith] at h
    subst h
    rfl
  | bulk k body =>
    rw [Built, BuiltWith] at h
    obtain ⟨source, n, -, rfl⟩ := h
    cases k <;> rfl
  | verbatim | seq | assoc =>
    rw [Built, BuiltWith] at h
    obtain ⟨_, _, _, rfl⟩ := h
    rfl

/-- A bulk string, as an element. -/
theorem element_of_built {v : Value} {m : Message} (h : Built v m) (hkind : m.kind = Kind.bulkString.byte) :
    ∃ a, Element a (m, none) := by
  have hv : v.kind = .bulkString := Kind.byte_injective ((built_kind h).symm.trans hkind)
  cases v with
  | bulk k body =>
    rw [Built, BuiltWith] at h
    obtain ⟨source, n, hdelivers, rfl⟩ := h
    cases k with
    | string => exact ⟨body, rfl, rfl, hdelivers.length, source, rfl⟩
    | error => cases hv
  | seq k | assoc k => cases k <;> cases hv
  | _ => cases hv

/-- `Cmd` returns unless the first element, if it is a bulk string, cannot be read. -/
theorem cmd_returns {m : Message} {ys : List (Message × Option Err)} {conn : Source} (hseq : m.seq = some (.items ys))
    (hfirst : ∀ y rest, ys = (y, none) :: rest → y.kind = Kind.bulkString.byte → ∃ r, y.readAll conn = some r) :
    ∃ r, cmd fl u m conn = some r := by
  by_cases hkind : m.kind = Kind.array.byte
  · rw [cmd, if_neg (not_not.mpr hkind), hseq, elements]
    dsimp only
    suffices hloop : ∃ p, cmdLoop u m 0 [] false conn ys = some p by
      obtain ⟨p, hp⟩ := hloop
      exact ⟨_, by rw [hp]; rfl⟩
    cases ys with
    | nil => exact ⟨_, rfl⟩
    | cons x rest =>
      obtain ⟨y, _ | err⟩ := x
      · by_cases hbulk : y.kind = Kind.bulkString.byte
        · obtain ⟨⟨⟨all, err⟩, y', conn'⟩, hread⟩ := hfirst y rest rfl hbulk
          cases Message.readAll_noError hread
          exact ⟨_, cmdLoop_cons rest hbulk hread⟩
        · rw [cmdLoop, if_pos hbulk]
          exact ⟨_, rfl⟩
      · exact ⟨_, rfl⟩
  · rw [cmd, if_pos hkind]
    exact ⟨_, rfl⟩

theorem encodedBulk_kind (m : Message) (w : World) : (encodedBulk e m w).kind = m.kind := by
  unfold encodedBulk
  split <;> rfl

/-- `Cmd` returns on what `Encode` has left of a well-formed array. -/
theorem cmd_encodedArray {k : SeqKind} {xs : List Value} {ms : List Message} (h : BuiltSeq xs ms) (w : World)
    (conn : Source) : ∃ r, cmd fl u (encoded fl e (k.message ms) w) conn = some r := by
  cases xs with
  | nil =>
    rw [BuiltSeq, BuiltSeqWith] at h
    subst h
    unfold encoded
    split
    · rename_i ys _ _ hseq _
      cases hseq
      exact cmd_returns rfl nofun
    · exact cmd_returns rfl nofun
  | cons v xs =>
    rw [BuiltSeq, BuiltSeqWith] at h
    obtain ⟨m, ms, hm, -, rfl⟩ := h
    unfold encoded
    split
    · rename_i ys n w' hseq _
      cases hseq
      refine cmd_returns rfl fun y rest hy hbulk => ?_
      obtain rfl : encodedBulk e m w' = y := congrArg Prod.fst (List.cons.inj hy).1
      rw [encodedBulk_kind] at hbulk
      obtain ⟨a, ha⟩ := element_of_built hm hbulk
      obtain ⟨m', hread, -⟩ := (ha.encodedBulk e w').readAll conn
      exact ⟨_, hread⟩
    · refine cmd_returns rfl fun y rest hy hbulk => ?_
      obtain rfl : m = y := congrArg Prod.fst (List.cons.inj hy).1
      obtain ⟨a, ha⟩ := element_of_built hm hbulk
      obtain ⟨m', hread, -⟩ := ha.readAll conn
      exact ⟨_, hread⟩

/-- `Cmd` returns on what `Encode` has left of a well-formed message. -/
theorem cmd_encoded (fl : Floats) (e : Encoder) (u : Letters) {v : Value} {m : Message} (h : Built v m)
    (w : World) (conn : Source) : ∃ r, cmd fl u (encoded fl e m w) conn = some r := by
  by_cases hkind : m.kind = Kind.array.byte
  · have hv : v.kind = .array := Kind.byte_injective ((built_kind h).symm.trans hkind)
    cases v with
    | seq k xs =>
      rw [Built, BuiltWith] at h
      obtain ⟨ms, hms, -, rfl⟩ := h
      exact cmd_encodedArray hms w conn
    | bulk k | assoc k => cases k <;> cases hv
    | _ => cases hv
  · rw [cmd, encoded_kind, if_pos hkind]
    exact ⟨_, rfl⟩

/-- A command without a name has no keys. -/
theorem proxyCommand_unnamed (fl : Floats) (e : Encoder) (x : Exchange) {c : Command} (hname : c.name = [])
    (conn : Source) (s : Conns) :
    ∃ err, proxyCommand fl e x c conn s = some (some err, s) := by
  have hselect : storeDatabase fl c conn s = some s := by
    rw [storeDatabase, hname, if_neg (by decide)]
  have hlock : lockWrite fl c conn = some (none, c, conn) := by
    rw [lockWrite, hname, if_neg (by decide)]
  have hspec : specification c.name = none := by
    rw [hname]
    decide
  rw [proxyCommand, hselect]
  dsimp only
  rw [hlock]
  dsimp only
  rw [storeCall, Command.keys, hspec]
  exact ⟨_, rfl⟩

/-- **A well-formed request is executed, and then ends the connection**: its bytes go to
the leader, `proxy` returns an error, and the client gets nothing. -/
theorem serve_executes {v : Value} {x : Exchange} {s : Conns} (rest : List Exchange) (hreq : Built v x.req)
    (hleader : s.toLeader.faults = []) (hclient : s.toClient.faults = []) :
    ∃ err s', serve fl e u errorText (x :: rest) s = some (some err, s') ∧
      s'.toLeader.out = s.toLeader.out ++ wire v ∧ s'.delivered = s.delivered := by
  have hencode : encode fl e x.req ⟨x.reqRest, s.toLeader⟩ =
      some (_, none, World.emit ⟨x.reqRest, s.toLeader⟩ (wire v)) :=
    encode_writes fl e v x.req hreq _ hleader
  obtain ⟨⟨result, m', conn'⟩, hcmd⟩ := cmd_encoded fl e u hreq ⟨x.reqRest, s.toLeader⟩ x.reqRest
  rw [serve_cons, proxy, hencode]
  dsimp only [World.emit]
  rw [hcmd]
  cases result with
  | error cause =>
    obtain ⟨err, herr⟩ := encode_newError fl e errorText cause (w := ⟨[], s.toClient⟩) hclient
    dsimp only [Conns.write]
    rw [herr]
    exact ⟨err, _, rfl, rfl, rfl⟩
  | ok c =>
    obtain ⟨err, herr⟩ := proxyCommand_unnamed fl e x (cmd_name hcmd) conn'
      {s with toLeader := (World.emit ⟨x.reqRest, s.toLeader⟩ (wire v)).out}
    exact ⟨err, _, herr, rfl, rfl⟩

end

/-- **The client gets one reply to each request exactly where there are none.** -/
theorem serves_iff (fl : Floats) (e : Encoder) (u : Letters) (errorText : Err → Bytes) (xs : List Exchange)
    (s : Conns) : Serves fl e u errorText xs s ↔ xs = [] := by
  constructor
  · rintro ⟨s', hserve, -⟩
    cases xs with
    | nil => rfl
    | cons x rest =>
      rw [serve_cons] at hserve
      exact absurd hserve proxy_ne_nil
  · rintro rfl
    exact ⟨s, rfl, (List.append_nil _).symm⟩

/-- `GET k`, and the leader's reply to it. -/
def getExchange : Exchange := ⟨newOutgoingCommand [ascii "GET", ascii "k"], [], .ofInt 1, []⟩

/-- **A `GET` is not answered.** -/
theorem not_serves : ¬∀ (fl : Floats) (e : Encoder) (u : Letters) (errorText : Err → Bytes) (xs : List Exchange)
    (s : Conns), (∀ x ∈ xs, (∃ v, Built v x.req) ∧ ∃ v, Built v x.resp) → s.toLeader.faults = [] →
    s.toClient.faults = [] → Serves fl e u errorText xs s := by
  intro h
  have hbuilt : ∀ x ∈ [getExchange], (∃ v, Built v x.req) ∧ ∃ v, Built v x.resp := by
    intro x hx
    rw [List.mem_singleton.mp hx]
    refine ⟨⟨_, built_newOutgoingCommand (by decide) (by decide)⟩, .int 1, ?_⟩
    rw [Built, BuiltWith]
    rfl
  obtain ⟨s', hserve, -⟩ := h noFloats {} noLetters (fun _ => []) [getExchange] {} hbuilt rfl rfl
  rw [serve_cons] at hserve
  exact proxy_ne_nil hserve

end AnarchoRedis.Protocol
