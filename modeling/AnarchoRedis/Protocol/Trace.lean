import AnarchoRedis.Protocol.Coder

/-! What `Encode` sends, whatever the writer does with it.

The calls of `Write` that encoding a message makes are fixed by the message and the
connection its readers draw on: a writer can only cut them short (`Sends`). So on any
writer the calls are those on a writer that never fails, up to the first that fails;
what is counted is what was accepted, and the failure is what is returned
(`encode_counts`). -/
namespace AnarchoRedis.Protocol
open Base

/-! ### Steps and the calls they make -/

/-- On any writer the step makes these calls until one fails. If none does it ends as
`fin` has it: with an error or without, or with a crash. -/
structure Sends (s : Step World) (conn : Source) (calls : List Bytes) (fin : Option (Option Err)) (conn' : Source) :
    Prop where
  failed : ∀ {out out' : Writer} {n : Nat} {err : Err}, out.deliver calls = (n, some err, out') →
    ∃ left, s ⟨conn, out⟩ = some (n, some err, ⟨left, out'⟩)
  finished : ∀ {out out' : Writer} {n : Nat}, out.deliver calls = (n, none, out') →
    s ⟨conn, out⟩ = fin.map fun err => (n, err, ⟨conn', out'⟩)

/-- What a step sends does not depend on the writer. -/
def Traced (s : Step World) : Prop := ∀ conn, ∃ calls fin conn', Sends s conn calls fin conn'

section
variable {s t : Step World} {conn conn' conn'' : Source} {calls more : List Bytes} {fin : Option (Option Err)}

theorem sends_write (b : Bytes) (conn : Source) : Sends (write b) conn [b] (some none) conn where
  failed {out out' n err} h := by
    rw [Writer.deliver] at h
    split at h
    · rename_i hw
      cases h
      exact ⟨conn, by rw [write, hw]⟩
    · cases h
  finished {out out' n} h := by
    rw [Writer.deliver] at h
    split at h
    · cases h
    · rename_i hw
      cases h
      rw [write, hw]
      rfl

/-- A step that ends without a call. -/
theorem sends_nothing (h : ∀ out, s ⟨conn, out⟩ = fin.map fun err => (0, err, ⟨conn', out⟩)) :
    Sends s conn [] fin conn' where
  failed h' := by cases h'
  finished h' := by
    cases h'
    exact h _

theorem Sends.andThen (hs : Sends s conn calls (some none) conn') (ht : Sends t conn' more fin conn'') :
    Sends (s.andThen t) conn (calls ++ more) fin conn'' where
  failed h := by
    rcases Writer.deliver_append_cases h with ⟨err, hd, heq⟩ | ⟨k, j, w, hd, hm, rfl⟩
    · cases heq
      obtain ⟨left, hrun⟩ := hs.failed hd
      exact ⟨left, by rw [Step.andThen, hrun]⟩
    · obtain ⟨left, hrun⟩ := ht.failed hm
      exact ⟨left, by rw [Step.andThen, hs.finished hd, Option.map_some]; simp only [hrun, Option.map_some]⟩
  finished h := by
    rcases Writer.deliver_append_cases h with ⟨err, -, heq⟩ | ⟨k, j, w, hd, hm, rfl⟩
    · cases heq
    · rw [Step.andThen, hs.finished hd, Option.map_some]
      simp only [ht.finished hm, Option.map_map]
      rfl

/-- A step that does not succeed is the last. -/
theorem Sends.last (hs : Sends s conn calls fin conn') (hfin : fin ≠ some none) (t : Step World) :
    Sends (s.andThen t) conn calls fin conn' where
  failed h := by
    obtain ⟨left, hrun⟩ := hs.failed h
    exact ⟨left, by rw [Step.andThen, hrun]⟩
  finished h := by
    rw [Step.andThen, hs.finished h]
    match fin, hfin with
    | none, _ => rfl
    | some (some err), _ => rfl

theorem traced_write (b : Bytes) : Traced (write b) := fun conn => ⟨[b], some none, conn, sends_write b conn⟩

theorem traced_skip : Traced Step.skip := fun conn => ⟨[], some none, conn, sends_nothing fun _ => rfl⟩

theorem traced_fail (err : Err) : Traced (Step.fail err) :=
  fun conn => ⟨[], some (some err), conn, sends_nothing fun _ => rfl⟩

theorem traced_crash : Traced Step.crash := fun conn => ⟨[], none, conn, sends_nothing fun _ => rfl⟩

theorem Traced.andThen (hs : Traced s) (ht : Traced t) : Traced (s.andThen t) := by
  intro conn
  obtain ⟨calls, fin, conn', hcalls⟩ := hs conn
  by_cases hfin : fin = some none
  · subst hfin
    obtain ⟨more, fin', conn'', hmore⟩ := ht conn'
    exact ⟨calls ++ more, fin', conn'', hcalls.andThen hmore⟩
  · exact ⟨calls, fin, conn', hcalls.last hfin t⟩

end

/-! ### Encoding -/

/-- One more call before the others. -/
theorem Sends.cons {s t : Step World} {b : Bytes} {conn conn' conn'' : Source} {calls : List Bytes}
    {fin : Option (Option Err)} (ht : Sends t conn' calls fin conn'')
    (hs : ∀ out, s ⟨conn, out⟩ =
      match out.write b with
      | (n, some err, out') => some (n, some err, ⟨conn', out'⟩)
      | (n, none, out') => (t ⟨conn', out'⟩).map fun x => (n + x.1, x.2)) :
    Sends s conn (b :: calls) fin conn'' where
  failed h := by
    rcases Writer.deliver_cons_cases h with ⟨err, hw, heq⟩ | ⟨k, j, w, hw, hd, rfl⟩
    · cases heq
      exact ⟨conn', by simp only [hs, hw]⟩
    · obtain ⟨left, hrun⟩ := ht.failed hd
      exact ⟨left, by simp only [hs, hw, hrun, Option.map_some]⟩
  finished h := by
    rcases Writer.deliver_cons_cases h with ⟨err, -, heq⟩ | ⟨k, j, w, hw, hd, rfl⟩
    · cases heq
    · simp only [hs, hw, ht.finished hd, Option.map_map]
      rfl

/-- The loop of `writeBulk`: which bytes come to be written depends on the reader
alone. -/
theorem traced_bulkLoop (chunkSize left : Int) (r : Reader) : Traced (bulkLoop chunkSize left r) := by
  intro conn
  induction hn : r.size conn using Nat.strong_induction_on generalizing left r conn with
  | _ n ih =>
    by_cases hpos : 0 < left
    · rcases hread : r.read (emptyBuffer chunkSize left) conn with ⟨b, _ | err, r', conn'⟩
      · have hsize := Reader.read_size (emptyBuffer_pos chunkSize hpos) hread
        obtain ⟨calls, fin, conn'', hcalls⟩ := ih (r'.size conn') (hn ▸ hsize) (left - b.length) r' conn' rfl
        refine ⟨b :: calls, fin, conn'', hcalls.cons fun out => ?_⟩
        rw [bulkLoop_read hpos hread]
        rcases hw : out.write b with ⟨k, _ | err', w⟩
        -- A call that succeeds has taken the whole piece.
        · have htaken := out.write_takes b
          rw [hw] at htaken
          obtain ⟨taken, -, hcount, -, hall⟩ := htaken
          have hk : k = b.length := by rw [← hall rfl]; exact hcount
          rw [hk]
        · rfl
      · refine ⟨[], some (some err), conn', sends_nothing fun out => ?_⟩
        rw [bulkLoop_readError hpos hread]
        rfl
    · have heol : bulkLoop chunkSize left r = write eol := by
        funext w
        rw [bulkLoop, dif_neg hpos]
      rw [heol]
      exact traced_write eol conn

theorem traced_writeBulk (e : Encoder) (m : Message) : Traced (writeBulk e m) := by
  unfold writeBulk
  split
  · exact traced_bulkLoop _ _ _
  · split
    · exact traced_crash
    · exact traced_write eol

theorem traced_encodeSimple (fl : Floats) (m : Message) : Traced (encodeSimple fl m) := by
  unfold encodeSimple
  split
  · exact traced_crash
  · exact traced_fail _
  · exact traced_write _

/-- A step after something was read from the connection. -/
theorem Traced.afterRead {s t : Step World} {conn : Source} (ht : Traced t) (conn' : Source)
    (hs : ∀ out, s ⟨conn, out⟩ = t ⟨conn', out⟩) : ∃ calls fin conn'', Sends s conn calls fin conn'' := by
  obtain ⟨calls, fin, conn'', hcalls⟩ := ht conn'
  refine ⟨calls, fin, conn'', fun h => ?_, fun h => ?_⟩
  · rw [hs]
    exact hcalls.failed h
  · rw [hs]
    exact hcalls.finished h

theorem traced_encodeConnSeq (fl : Floats) : Traced (encodeConnSeq fl) := by
  intro conn
  cases herr : (iterate fl conn).err with
  | some err =>
    refine ⟨[], some (some err), (iterate fl conn).rest, sends_nothing fun out => ?_⟩
    simp only [encodeConnSeq, herr]
    rfl
  | none =>
    refine (traced_write [0]).afterRead (iterate fl conn).rest fun out => ?_
    simp only [encodeConnSeq, herr]
    rfl

theorem traced_encodeConnAssoc (fl : Floats) : Traced (encodeConnAssoc fl) := by
  have hfold (kvs : List ((Message × Message) × Option Err)) :
      Traced (kvs.foldr (fun _ rest => (encodeZero.andThen encodeZero).andThen rest) Step.skip) := by
    induction kvs with
    | nil => exact traced_skip
    | cons kv kvs ih => exact ((traced_write [0]).andThen (traced_write [0])).andThen ih
  intro conn
  let kvs := chunk (({} : Message), ({} : Message)) false [((iterate fl conn).msg, (iterate fl conn).err)]
  exact (hfold kvs).afterRead (iterate fl conn).rest fun out => rfl

/-- The step writes this byte first. -/
def Starts (b : UInt8) (s : Step World) : Prop := ∃ tail, s = (write [b]).andThen tail ∧ Traced tail

theorem Starts.traced {b : UInt8} {s : Step World} (h : Starts b s) : Traced s := by
  obtain ⟨tail, rfl, htail⟩ := h
  exact (traced_write [b]).andThen htail

section
variable (fl : Floats) (e : Encoder)

mutual

theorem encode_starts : ∀ m : Message, Starts m.kind (encode fl e m)
  | ⟨kind, _, _, _, _, _, _, _, runLength, _, encoding, seq, assoc⟩ => by
    rw [encode]
    refine ⟨_, rfl, ?_⟩
    split
    · exact traced_skip
    · split
      · exact traced_encodeSimple fl _
      · refine (traced_write _).andThen ((traced_write _).andThen (Traced.andThen ?_ ?_))
        · split
          · exact (traced_write _).andThen (traced_write _)
          · exact traced_skip
        · split
          · exact traced_writeBulk e _
          · exact traced_writeBulk e _
          · exact traced_writeBulk e _
          · exact traced_encodeSeq seq
          · exact traced_encodeSeq seq
          · exact traced_encodeSeq seq
          · exact traced_encodeAssoc assoc
          · exact traced_encodeAssoc assoc
          · exact traced_skip

theorem traced_encodeSeq : ∀ s : Option (Feed Message), Traced (encodeSeq fl e s)
  | none => by
    rw [encodeSeq]
    exact traced_crash
  | some .conn => by
    rw [encodeSeq]
    exact traced_encodeConnSeq fl
  | some (.items xs) => by
    rw [encodeSeq]
    exact traced_encodeItems xs

theorem traced_encodeItems : ∀ xs : List (Message × Option Err), Traced (encodeItems fl e xs)
  | [] => by
    rw [encodeItems]
    exact traced_skip
  | (_, some err) :: _ => by
    rw [encodeItems]
    exact traced_fail err
  | (msg, none) :: rest => by
    rw [encodeItems]
    exact (encode_starts msg).traced.andThen (traced_encodeItems rest)

theorem traced_encodeAssoc : ∀ s : Option (Feed (Message × Message)), Traced (encodeAssoc fl e s)
  | none => by
    rw [encodeAssoc]
    exact traced_crash
  | some .conn => by
    rw [encodeAssoc]
    exact traced_encodeConnAssoc fl
  | some (.items kvs) => by
    rw [encodeAssoc]
    exact traced_encodePairs kvs

theorem traced_encodePairs : ∀ kvs : List ((Message × Message) × Option Err), Traced (encodePairs fl e kvs)
  | [] => by
    rw [encodePairs]
    exact traced_skip
  | ((k, v), _) :: rest => by
    rw [encodePairs]
    exact (encode_starts k).traced.andThen ((encode_starts v).traced.andThen (traced_encodePairs rest))

end

/-- **What `Encode` sends does not depend on the writer.** -/
theorem traced_encode (m : Message) : Traced (encode fl e m) := (encode_starts fl e m).traced

end

/-! ### Messages of the constructors -/

/-- A message that the constructors build, its bodies read from any readers. -/
inductive Constructed : Message → Prop where
  | simpleString (s : Bytes) : Constructed (.ofSimpleString s)
  | error (s : Bytes) : Constructed (.ofError s)
  | null : Constructed .ofNull
  | int (i : Int64) : Constructed (.ofInt i)
  | bool (b : Bool) : Constructed (.ofBool b)
  | double (f : UInt64) : Constructed (.ofDouble f)
  /-- The pointer may be nil. -/
  | bigNumber (i : Option Int) : Constructed {kind := Kind.bigNumber.byte, bigNumber := i}
  | bulkString (r : Reader) (n : Int64) : Constructed {Message.ofBulkString [] n with reader := some r}
  | bulkError (r : Reader) (n : Int64) : Constructed {Message.ofBulkError [] n with reader := some r}
  | verbatimString (r : Reader) (n : Int64) (encoding : Encoding) :
      Constructed {Message.ofVerbatimString [] n encoding with reader := some r}
  | array (ms : List Message) : (∀ m ∈ ms, Constructed m) → Constructed (.ofArray ms)
  | set (ms : List Message) : (∀ m ∈ ms, Constructed m) → Constructed (.ofSet ms)
  | map (kvs : List Message) (m : Message) : (∀ x ∈ kvs, Constructed x) → Message.ofMap kvs = some m → Constructed m

/-- The step does not crash. -/
def Returns (s : Step World) : Prop := ∀ w, ∃ r, s w = some r

section
variable {s t : Step World}

theorem returns_write (b : Bytes) : Returns (write b) := fun _ => ⟨_, rfl⟩

theorem returns_skip : Returns Step.skip := fun _ => ⟨_, rfl⟩

theorem Returns.andThen (hs : Returns s) (ht : Returns t) : Returns (s.andThen t) := by
  intro w
  obtain ⟨⟨n, err, w'⟩, hrun⟩ := hs w
  cases err with
  | some err => exact ⟨(n, some err, w'), by rw [Step.andThen, hrun]⟩
  | none =>
    obtain ⟨r, hrun'⟩ := ht w'
    exact ⟨(n + r.1, r.2), by rw [Step.andThen, hrun]; simp only [hrun', Option.map_some]⟩

theorem returns_bulkLoop (chunkSize left : Int) (r : Reader) : Returns (bulkLoop chunkSize left r) := by
  intro w
  induction hn : r.size w.conn using Nat.strong_induction_on generalizing left r w with
  | _ n ih =>
    by_cases hpos : 0 < left
    · rcases hread : r.read (emptyBuffer chunkSize left) w.conn with ⟨b, _ | err, r', conn⟩
      · have hsize := Reader.read_size (emptyBuffer_pos chunkSize hpos) hread
        rw [bulkLoop_read hpos hread]
        rcases w.out.write b with ⟨k, _ | err, out⟩
        · obtain ⟨r, hrun⟩ := ih (r'.size conn) (hn ▸ hsize) (left - k) r' ⟨conn, out⟩ rfl
          exact ⟨(k + r.1, r.2), by simp only [hrun, Option.map_some]⟩
        · exact ⟨_, rfl⟩
      · exact ⟨_, bulkLoop_readError hpos hread⟩
    · rw [bulkLoop, dif_neg hpos]
      exact returns_write eol w

/-- The header of an aggregate, and what follows it. -/
theorem returns_header (n : Bytes) (h : Returns t) (hs : Returns s) :
    Returns ((write n).andThen ((write eol).andThen (s.andThen t))) :=
  (returns_write n).andThen ((returns_write eol).andThen (hs.andThen h))

end

section
variable (fl : Floats) (e : Encoder)

theorem returns_encodeItems {ms : List Message} (h : ∀ m ∈ ms, Returns (encode fl e m)) :
    Returns (encodeItems fl e (ms.map fun m => (m, none))) := by
  induction ms with
  | nil =>
    rw [List.map_nil, encodeItems]
    exact returns_skip
  | cons m ms ih =>
    rw [List.map_cons, encodeItems]
    exact (h m List.mem_cons_self).andThen (ih fun x hx => h x (List.mem_cons_of_mem m hx))

theorem returns_encodePairs {ms : List Message} {kvs : List (Message × Message)}
    (h : ∀ m ∈ ms, Returns (encode fl e m)) (hpairs : Message.pairs ms = some kvs) :
    Returns (encodePairs fl e (kvs.map fun kv => (kv, none))) := by
  fun_induction Message.pairs ms generalizing kvs with
  | case1 =>
    cases hpairs
    rw [List.map_nil, encodePairs]
    exact returns_skip
  | case2 => cases hpairs
  | case3 k v rest ih =>
    obtain ⟨kvs, hrest, rfl⟩ := Option.map_eq_some_iff.mp hpairs
    rw [List.map_cons, encodePairs]
    refine (h k List.mem_cons_self).andThen ((h v ?_).andThen (ih (fun m hm => h m ?_) hrest))
    · exact List.mem_cons_of_mem k List.mem_cons_self
    · exact List.mem_cons_of_mem k (List.mem_cons_of_mem v hm)

theorem returns_encode {m : Message} (h : Constructed m) : Returns (encode fl e m) := by
  induction h with
  | simpleString | null | int | bool | double | bigNumber => exact (returns_write _).andThen (returns_write _)
  | error => exact (returns_write _).andThen fun _ => ⟨_, rfl⟩
  | bulkString r n | bulkError r n =>
    exact (returns_write _).andThen (returns_header _ (returns_bulkLoop _ _ r) returns_skip)
  | verbatimString r n encoding =>
    exact (returns_write _).andThen
      (returns_header _ (returns_bulkLoop _ _ r) ((returns_write _).andThen (returns_write _)))
  | array ms _ ih | set ms _ ih =>
    exact (returns_write _).andThen (returns_header _ (returns_encodeItems fl e ih) returns_skip)
  | map kvs m _ hm ih =>
    obtain ⟨ps, hpairs, rfl⟩ := Option.map_eq_some_iff.mp hm
    exact (returns_write _).andThen (returns_header _ (returns_encodePairs fl e ih hpairs) returns_skip)

/-! ### Any writer -/

/-- **`Encode` counts exactly what the writer accepts.** The calls it makes on a writer
that never fails are those it makes on any writer, up to the first that fails. What
that writer has accepted is the beginning of what the other gets, its length is the
count returned, and the error of a call that fails is the error returned. -/
theorem encode_counts {m : Message} (h : Constructed m) (conn : Source) :
    ∃ calls fin conn',
      encode fl e m ⟨conn, ⟨[], []⟩⟩ = some (calls.flatten.length, fin, ⟨conn', ⟨calls.flatten, []⟩⟩) ∧
      ∀ w : Writer, ∃ total err left w' failed taken,
        encode fl e m ⟨conn, w⟩ = some (total, err, ⟨left, w'⟩) ∧ w.deliver calls = (total, failed, w') ∧
        w'.out = w.out ++ taken ∧ total = taken.length ∧ taken <+: calls.flatten ∧ (failed ≠ none → err = failed) := by
  obtain ⟨calls, fin, conn', hcalls⟩ := traced_encode fl e m conn
  have hplain := hcalls.finished (Writer.deliver_plain [] calls)
  obtain ⟨fin, rfl⟩ : ∃ err, fin = some err := by
    cases fin with
    | some err => exact ⟨err, rfl⟩
    | none =>
      obtain ⟨r, hr⟩ := returns_encode fl e h ⟨conn, ⟨[], []⟩⟩
      rw [hplain] at hr
      cases hr
  refine ⟨calls, fin, conn', hplain, fun w => ?_⟩
  obtain ⟨taken, hout, hcount, hfront⟩ := w.deliver_takes calls
  rcases hd : w.deliver calls with ⟨total, _ | err, w'⟩
  · rw [hd] at hout hcount
    exact ⟨total, fin, conn', w', none, taken, hcalls.finished hd, rfl, hout, hcount, hfront, fun h => absurd rfl h⟩
  · rw [hd] at hout hcount
    obtain ⟨left, hrun⟩ := hcalls.failed hd
    exact ⟨total, some err, left, w', some err, taken, hrun, rfl, hout, hcount, hfront, fun _ => rfl⟩

end

/-- A list of one number, on a writer that takes one byte of the last line. -/
theorem encode_counts_cut :
    ∃ left taken, taken <+: ascii "*1\r\n:7\r\n" ∧ taken.length = 6 ∧
      encode noFloats {} (.ofArray [.ofInt 7]) ⟨[], ⟨[], [none, none, none, none, some (1, .eof)]⟩⟩ =
        some (6, some .eof, ⟨left, ⟨taken, []⟩⟩) := by
  have hbuilt : Constructed (.ofArray [.ofInt 7]) := .array _ fun m hm => by
    rw [List.mem_singleton.mp hm]
    exact .int 7
  have hsent : encode noFloats {} (.ofArray [.ofInt 7]) ⟨[], ⟨[], []⟩⟩ =
      some (8, none, ⟨[], ⟨ascii "*1\r\n:7\r\n", []⟩⟩) := rfl
  have hcut : encode noFloats {} (.ofArray [.ofInt 7]) ⟨[], ⟨[], [none, none, none, none, some (1, .eof)]⟩⟩ =
      some (6, some .eof, ⟨[], ⟨ascii "*1\r\n:7", []⟩⟩) := rfl
  obtain ⟨calls, fin, conn', hplain, hany⟩ := encode_counts noFloats {} hbuilt []
  obtain ⟨total, err, left, w', failed, taken, hrun, -, hout, htotal, hfront, -⟩ :=
    hany ⟨[], [none, none, none, none, some (1, .eof)]⟩
  rw [hsent] at hplain
  rw [hcut] at hrun
  simp only [Option.some.injEq, Prod.mk.injEq, World.mk.injEq, Writer.mk.injEq] at hplain hrun
  obtain ⟨rfl, -, -, rfl⟩ := hrun
  rw [← hplain.2.2.2.1] at hfront
  refine ⟨[], taken, hfront, htotal.symm, ?_⟩
  rw [List.nil_append] at hout
  rw [hcut, ← hout]

end AnarchoRedis.Protocol
