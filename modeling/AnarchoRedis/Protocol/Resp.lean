import AnarchoRedis.Protocol.Wire

/-! The serialization of RESP3, and what `Encode` makes of it.

A `Reply` is a tree of the package's constructors, each with what it is given:
texts without line breaks, and bodies with the readers that deliver them. `resp3` is
its serialization by the protocol. `Encode` writes the bytes of a `Value`
(`encode_writes`) unless something in the tree makes it fail: an `Error`, which it
refuses, or a reader that reports the end of the file together with its last bytes,
which are then dropped. The bytes are those of the protocol except for a `Bool`,
which is written out, and a `VerbatimString`, whose encoding is set off by a line
break and not counted. -/
namespace AnarchoRedis.Protocol
open Base

/-! ### Replies -/

structure Text where
  bytes : Bytes
  noCR : 13 ∉ bytes
  noLF : 10 ∉ bytes

def Text.line (t : Text) : Line := ⟨t.bytes, noEol_of_not_mem t.noCR⟩

/-- A body and its reader: pieces without an error, and what comes together with the
end of the file, if anything does. -/
structure Body where
  front : Source
  plain : front.Plain
  last : Bytes

def Body.source (b : Body) : Source := if b.last = [] then b.front else b.front ++ [⟨b.last, some .eof⟩]

def Body.bytes (b : Body) : Bytes := b.front.bytes ++ b.last

inductive Group where
  | array
  | set
  deriving DecidableEq

def Group.kind : Group → SeqKind
  | .array => .array
  | .set => .set

def Group.message (g : Group) (ms : List Message) : Message :=
  match g with
  | .array => .ofArray ms
  | .set => .ofSet ms

inductive Reply where
  | simpleString (t : Text)
  | error (t : Text)
  | null
  | int (i : Int64)
  | bool (b : Bool)
  | bigNumber (i : Int)
  | bulk (k : BulkKind) (body : Body)
  | verbatimString (encoding : Encoding) (body : Body)
  | group (g : Group) (xs : List Reply)
  | map (kvs : List (Reply × Reply))

mutual

/-- The message is the one that the constructors build. -/
def Makes : Reply → Message → Prop
  | .simpleString t, m => m = .ofSimpleString t.bytes
  | .error t, m => m = .ofError t.bytes
  | .null, m => m = .ofNull
  | .int i, m => m = .ofInt i
  | .bool b, m => m = .ofBool b
  | .bigNumber i, m => m = .ofBigNumber i
  | .bulk k body, m => ∃ n : Int64, n.toInt = body.bytes.length ∧ m = k.message body.source n
  | .verbatimString encoding body, m =>
    ∃ n : Int64, n.toInt = body.bytes.length ∧ m = .ofVerbatimString body.source n encoding
  | .group g xs, m => ∃ ms, MakesSeq xs ms ∧ xs.length < 2 ^ 63 ∧ m = g.message ms
  | .map kvs, m =>
    ∃ ms, MakesAssoc kvs ms ∧ kvs.length < 2 ^ 63 ∧ some m = Message.ofMap (ms.flatMap fun kv => [kv.1, kv.2])

def MakesSeq : List Reply → List Message → Prop
  | [], ms => ms = []
  | x :: xs, ms => ∃ m rest, Makes x m ∧ MakesSeq xs rest ∧ ms = m :: rest

def MakesAssoc : List (Reply × Reply) → List (Message × Message) → Prop
  | [], ms => ms = []
  | (k, v) :: kvs, ms => ∃ mk mv rest, Makes k mk ∧ Makes v mv ∧ MakesAssoc kvs rest ∧ ms = (mk, mv) :: rest

end

/-! ### The serialization -/

/-- The byte of an ASCII character. -/
def byte (c : Char) : UInt8 := UInt8.ofNat c.toNat

mutual

def resp3 : Reply → Bytes
  | .simpleString t => byte '+' :: (t.bytes ++ eol)
  | .error t => byte '-' :: (t.bytes ++ eol)
  | .null => byte '_' :: eol
  | .int i => byte ':' :: (formatInt i.toInt ++ eol)
  | .bool b => byte '#' :: byte (if b then 't' else 'f') :: eol
  | .bigNumber i => byte '(' :: (formatInt i ++ eol)
  | .bulk .string body => byte '$' :: (header body.bytes.length ++ (body.bytes ++ eol))
  | .bulk .error body => byte '!' :: (header body.bytes.length ++ (body.bytes ++ eol))
  | .verbatimString encoding body =>
    byte '=' :: (header (4 + body.bytes.length) ++ (encoding.bytes ++ byte ':' :: (body.bytes ++ eol)))
  | .group .array xs => byte '*' :: (header xs.length ++ resp3Seq xs)
  | .group .set xs => byte '~' :: (header xs.length ++ resp3Seq xs)
  | .map kvs => byte '%' :: (header kvs.length ++ resp3Assoc kvs)

def resp3Seq : List Reply → Bytes
  | [] => []
  | x :: xs => resp3 x ++ resp3Seq xs

def resp3Assoc : List (Reply × Reply) → Bytes
  | [] => []
  | (k, v) :: kvs => resp3 k ++ (resp3 v ++ resp3Assoc kvs)

end

mutual

/-- No error, no boolean, no verbatim string, and no body whose last bytes come with
the end of the file. -/
def Plain : Reply → Prop
  | .error _ | .bool _ | .verbatimString .. => False
  | .bulk _ body => body.last = []
  | .group _ xs => PlainSeq xs
  | .map kvs => PlainAssoc kvs
  | _ => True

def PlainSeq : List Reply → Prop
  | [] => True
  | x :: xs => Plain x ∧ PlainSeq xs

def PlainAssoc : List (Reply × Reply) → Prop
  | [] => True
  | (k, v) :: kvs => Plain k ∧ Plain v ∧ PlainAssoc kvs

end

/-! ### The value that is written -/

mutual

/-- The value whose bytes `Encode` writes, unless it fails. -/
def Reply.value : Reply → Option Value
  | .simpleString t => some (.text t.line)
  | .error _ => none
  | .null => some .null
  | .int i => some (.int i)
  | .bool b => some (.bool b)
  | .bigNumber i => some (.bigNumber i)
  | .bulk k body => if body.last = [] then some (.bulk k body.bytes) else none
  | .verbatimString encoding body => if body.last = [] then some (.verbatim encoding body.bytes) else none
  | .group g xs => (values xs).map (.seq g.kind)
  | .map kvs => (pairValues kvs).map (.assoc .map)

def values : List Reply → Option (List Value)
  | [] => some []
  | x :: xs => x.value.bind fun v => (values xs).map (v :: ·)

def pairValues : List (Reply × Reply) → Option (List (Value × Value))
  | [] => some []
  | (k, v) :: kvs => k.value.bind fun a => v.value.bind fun b => (pairValues kvs).map ((a, b) :: ·)

end

theorem values_cons {x : Reply} {xs : List Reply} {vs : List Value} :
    values (x :: xs) = some vs ↔ ∃ v rest, x.value = some v ∧ values xs = some rest ∧ vs = v :: rest := by
  rw [values]
  simp only [Option.bind_eq_some_iff, Option.map_eq_some_iff]
  constructor
  · rintro ⟨v, hv, rest, hrest, rfl⟩
    exact ⟨v, rest, hv, hrest, rfl⟩
  · rintro ⟨v, rest, hv, hrest, rfl⟩
    exact ⟨v, hv, rest, hrest, rfl⟩

theorem pairValues_cons {k v : Reply} {kvs : List (Reply × Reply)} {ps : List (Value × Value)} :
    pairValues ((k, v) :: kvs) = some ps ↔
      ∃ a b rest, k.value = some a ∧ v.value = some b ∧ pairValues kvs = some rest ∧ ps = (a, b) :: rest := by
  rw [pairValues]
  simp only [Option.bind_eq_some_iff, Option.map_eq_some_iff]
  constructor
  · rintro ⟨a, ha, b, hb, rest, hrest, rfl⟩
    exact ⟨a, b, rest, ha, hb, hrest, rfl⟩
  · rintro ⟨a, b, rest, ha, hb, hrest, rfl⟩
    exact ⟨a, ha, b, hb, rest, hrest, rfl⟩

theorem values_length {xs : List Reply} {vs : List Value} (h : values xs = some vs) : vs.length = xs.length := by
  induction xs generalizing vs with
  | nil =>
    rw [values] at h
    cases h
    rfl
  | cons x xs ih =>
    obtain ⟨v, rest, _, hrest, rfl⟩ := values_cons.mp h
    rw [List.length_cons, List.length_cons, ih hrest]

theorem pairValues_length {kvs : List (Reply × Reply)} {ps : List (Value × Value)} (h : pairValues kvs = some ps) :
    ps.length = kvs.length := by
  induction kvs generalizing ps with
  | nil =>
    rw [pairValues] at h
    cases h
    rfl
  | cons kv kvs ih =>
    obtain ⟨a, b, rest, _, _, hrest, rfl⟩ := pairValues_cons.mp h
    rw [List.length_cons, List.length_cons, ih hrest]

theorem Body.delivers {b : Body} {n : Int64} (hlast : b.last = []) (hn : n.toInt = b.bytes.length) :
    Delivers b.source n b.bytes := by
  have hsource : b.source = b.front := if_pos hlast
  have hbytes : b.bytes = b.front.bytes := by rw [Body.bytes, hlast, List.append_nil]
  rw [hsource]
  exact ⟨b.plain.calm, hbytes.symm, hn⟩

mutual

/-- A reply that has a value is built from it. -/
theorem built_of_makes : ∀ {d : Reply} {v : Value} {m : Message}, d.value = some v → Makes d m → Built v m
  | .simpleString t, v, m, hv, h => by
    cases hv
    rwa [Makes] at h
  | .error _, _, _, hv, _ => nomatch hv
  | .null, v, m, hv, h => by
    cases hv
    rwa [Makes] at h
  | .int i, v, m, hv, h => by
    cases hv
    rwa [Makes] at h
  | .bool b, v, m, hv, h => by
    cases hv
    rwa [Makes] at h
  | .bigNumber i, v, m, hv, h => by
    cases hv
    rwa [Makes] at h
  | .bulk k body, v, m, hv, h => by
    rw [Reply.value] at hv
    rw [Makes] at h
    obtain ⟨n, hn, rfl⟩ := h
    split at hv
    · rename_i hlast
      cases hv
      rw [Built, BuiltWith]
      exact ⟨_, n, Body.delivers hlast hn, rfl⟩
    · cases hv
  | .verbatimString encoding body, v, m, hv, h => by
    rw [Reply.value] at hv
    rw [Makes] at h
    obtain ⟨n, hn, rfl⟩ := h
    split at hv
    · rename_i hlast
      cases hv
      rw [Built, BuiltWith]
      exact ⟨_, n, Body.delivers hlast hn, rfl⟩
    · cases hv
  | .group g xs, v, m, hv, h => by
    rw [Reply.value, Option.map_eq_some_iff] at hv
    rw [Makes] at h
    obtain ⟨vs, hvs, rfl⟩ := hv
    obtain ⟨ms, hms, hlen, rfl⟩ := h
    rw [Built, BuiltWith]
    refine ⟨ms, builtSeq_of_makes hvs hms, by rwa [values_length hvs], ?_⟩
    cases g <;> rfl
  | .map kvs, v, m, hv, h => by
    rw [Reply.value, Option.map_eq_some_iff] at hv
    rw [Makes] at h
    obtain ⟨vs, hvs, rfl⟩ := hv
    obtain ⟨ms, hms, hlen, hm⟩ := h
    rw [ofMap_eq] at hm
    rw [Built, BuiltWith]
    exact ⟨ms, builtAssoc_of_makes hvs hms, by rwa [pairValues_length hvs], Option.some.inj hm⟩

theorem builtSeq_of_makes : ∀ {xs : List Reply} {vs : List Value} {ms : List Message}, values xs = some vs →
    MakesSeq xs ms → BuiltSeq vs ms
  | [], vs, ms, hv, h => by
    rw [values] at hv
    cases hv
    rwa [MakesSeq] at h
  | x :: xs, vs, ms, hv, h => by
    obtain ⟨v, rest, hx, hrest, rfl⟩ := values_cons.mp hv
    rw [MakesSeq] at h
    obtain ⟨m, ms, hm, hms, rfl⟩ := h
    rw [BuiltSeq, BuiltSeqWith]
    exact ⟨m, ms, built_of_makes hx hm, builtSeq_of_makes hrest hms, rfl⟩

theorem builtAssoc_of_makes : ∀ {kvs : List (Reply × Reply)} {ps : List (Value × Value)}
    {ms : List (Message × Message)}, pairValues kvs = some ps → MakesAssoc kvs ms → BuiltAssoc ps ms
  | [], ps, ms, hv, h => by
    rw [pairValues] at hv
    cases hv
    rwa [MakesAssoc] at h
  | (k, v) :: kvs, ps, ms, hv, h => by
    obtain ⟨a, b, rest, hk, hb, hrest, rfl⟩ := pairValues_cons.mp hv
    rw [MakesAssoc] at h
    obtain ⟨mk, mv, ms, hmk, hmv, hms, rfl⟩ := h
    rw [BuiltAssoc, BuiltAssocWith]
    exact ⟨mk, mv, ms, built_of_makes hk hmk, built_of_makes hb hmv, builtAssoc_of_makes hrest hms, rfl⟩

end

/-! ### Failing -/

/-- On a writer that does not fail the step returns an error. -/
def Fails (s : Step World) : Prop := ∃ a, Stops s a

theorem fails_fail (err : Err) : Fails (Step.fail err) :=
  ⟨[], fun w _ => ⟨0, err, by rw [World.emit_nil]; rfl⟩⟩

theorem Fails.andThen {s : Step World} (h : Fails s) (t : Step World) : Fails (s.andThen t) := by
  obtain ⟨a, ha⟩ := h
  exact ⟨a, ha.andThen t⟩

theorem Writes.fails {s t : Step World} {b : Bytes} (hs : Writes s b) (ht : Fails t) : Fails (s.andThen t) := by
  obtain ⟨a, ha⟩ := ht
  exact ⟨b ++ a, hs.stops ha⟩

/-- The loop of `writeBulk` on a reader that ends early. -/
theorem bulkLoop_fails (chunkSize : Int) {source : Source} (h : source.EndsEarly) :
    Fails (bulkLoop chunkSize source.bytes.length (.own source)) := by
  obtain ⟨a, -, hstops⟩ := bulkLoop_beyond chunkSize h.endsAtOnce.clear_lt
  exact ⟨a, hstops⟩

theorem Body.writeBulk_fails (e : Encoder) {b : Body} {n : Int64} {m : Message} (hlast : b.last ≠ [])
    (hn : n.toInt = b.bytes.length) (hr : m.reader = some (.own b.source)) (hrun : m.runLength = n) :
    Fails (writeBulk e m) := by
  have hsource : b.source = b.front ++ [⟨b.last, some .eof⟩] := if_neg hlast
  have hbytes : b.bytes = b.source.bytes := by simp [hsource, Body.bytes, Source.bytes]
  unfold writeBulk
  rw [hr, hrun, hn, hbytes]
  exact bulkLoop_fails e.chunkSize.toInt ⟨b.front, b.last, hsource, b.plain, hlast⟩

theorem fails_header {s : Step World} (n : Bytes) (h : Fails s) :
    Fails ((write n).andThen ((write eol).andThen (Step.skip.andThen s))) :=
  (writes_write n).fails ((writes_write eol).fails (writes_skip.fails h))

section
variable (fl : Floats) (e : Encoder)

mutual

/-- `Encode` fails on a reply that has no value. -/
theorem encode_fails : ∀ {d : Reply} {m : Message}, d.value = none → Makes d m → Fails (encode fl e m)
  | .simpleString _, _, hv, _ => nomatch hv
  | .error t, m, hv, h => by
    rw [Makes] at h
    subst h
    exact (writes_write _).fails (fails_fail _)
  | .null, _, hv, _ => nomatch hv
  | .int _, _, hv, _ => nomatch hv
  | .bool _, _, hv, _ => nomatch hv
  | .bigNumber _, _, hv, _ => nomatch hv
  | .bulk k body, m, hv, h => by
    rw [Reply.value] at hv
    rw [Makes] at h
    obtain ⟨n, hn, rfl⟩ := h
    split at hv
    · cases hv
    · rename_i hlast
      cases k with
      | string => exact (writes_write _).fails (fails_header _ (Body.writeBulk_fails e hlast hn rfl rfl))
      | error => exact (writes_write _).fails (fails_header _ (Body.writeBulk_fails e hlast hn rfl rfl))
  | .verbatimString encoding body, m, hv, h => by
    rw [Reply.value] at hv
    rw [Makes] at h
    obtain ⟨n, hn, rfl⟩ := h
    split at hv
    · cases hv
    · rename_i hlast
      exact (writes_write _).fails ((writes_write _).fails ((writes_write eol).fails
        (((writes_write _).andThen (writes_write eol)).fails (Body.writeBulk_fails e hlast hn rfl rfl))))
  | .group g xs, m, hv, h => by
    rw [Reply.value, Option.map_eq_none_iff] at hv
    rw [Makes] at h
    obtain ⟨ms, hms, _, rfl⟩ := h
    have hitems := encodeItems_fails hv hms
    cases g with
    | array => exact (writes_write _).fails (fails_header _ hitems)
    | set => exact (writes_write _).fails (fails_header _ hitems)
  | .map kvs, m, hv, h => by
    rw [Reply.value, Option.map_eq_none_iff] at hv
    rw [Makes] at h
    obtain ⟨ms, hms, _, hm⟩ := h
    rw [ofMap_eq] at hm
    cases hm
    exact (writes_write _).fails (fails_header _ (encodePairs_fails hv hms))

theorem encodeItems_fails : ∀ {xs : List Reply} {ms : List Message}, values xs = none → MakesSeq xs ms →
    Fails (encodeItems fl e (ms.map fun m => (m, none)))
  | [], _, hv, _ => nomatch hv
  | x :: xs, ms, hv, h => by
    rw [MakesSeq] at h
    obtain ⟨m, rest, hm, hrest, rfl⟩ := h
    rw [List.map_cons, encodeItems]
    cases hx : x.value with
    | none => exact (encode_fails hx hm).andThen _
    | some v =>
      rw [values, hx, Option.bind_some, Option.map_eq_none_iff] at hv
      exact (encode_writes fl e v m (built_of_makes hx hm)).fails (encodeItems_fails hv hrest)

theorem encodePairs_fails : ∀ {kvs : List (Reply × Reply)} {ms : List (Message × Message)}, pairValues kvs = none →
    MakesAssoc kvs ms → Fails (encodePairs fl e (ms.map fun m => (m, none)))
  | [], _, hv, _ => nomatch hv
  | (k, v) :: kvs, ms, hv, h => by
    rw [MakesAssoc] at h
    obtain ⟨mk, mv, rest, hmk, hmv, hrest, rfl⟩ := h
    rw [List.map_cons, encodePairs]
    cases hk : k.value with
    | none => exact (encode_fails hk hmk).andThen _
    | some a =>
      refine (encode_writes fl e a mk (built_of_makes hk hmk)).fails ?_
      cases hv' : v.value with
      | none => exact (encode_fails hv' hmv).andThen _
      | some b =>
        rw [pairValues, hk, hv', Option.bind_some, Option.bind_some, Option.map_eq_none_iff] at hv
        exact (encode_writes fl e b mv (built_of_makes hv' hmv)).fails (encodePairs_fails hv hrest)

end

end

/-! ### The bytes against the serialization -/

mutual

/-- A plain reply has a value, with the bytes of the serialization. -/
theorem wire_of_plain : ∀ {d : Reply}, Plain d → ∃ v, d.value = some v ∧ wire v = resp3 d
  | .simpleString t, _ => ⟨.text t.line, by rw [Reply.value], by rw [resp3]; rfl⟩
  | .error _, h => nomatch h
  | .null, _ => ⟨.null, by rw [Reply.value], by rw [resp3]; rfl⟩
  | .int i, _ => ⟨.int i, by rw [Reply.value], by rw [resp3]; rfl⟩
  | .bool _, h => nomatch h
  | .bigNumber i, _ => ⟨.bigNumber i, by rw [Reply.value], by rw [resp3]; rfl⟩
  | .bulk k body, h => by
    rw [Plain] at h
    refine ⟨.bulk k body.bytes, by rw [Reply.value, if_pos h], ?_⟩
    cases k <;> rw [resp3] <;> rfl
  | .verbatimString .., h => nomatch h
  | .group g xs, h => by
    rw [Plain] at h
    obtain ⟨vs, hvs, hwire⟩ := wireSeq_of_plain h
    refine ⟨.seq g.kind vs, by rw [Reply.value, hvs, Option.map_some], ?_⟩
    cases g <;> rw [resp3, wire, payload, values_length hvs, hwire] <;> rfl
  | .map kvs, h => by
    rw [Plain] at h
    obtain ⟨vs, hvs, hwire⟩ := wireAssoc_of_plain h
    refine ⟨.assoc .map vs, by rw [Reply.value, hvs, Option.map_some], ?_⟩
    rw [resp3, wire, payload, pairValues_length hvs, hwire]
    rfl

theorem wireSeq_of_plain : ∀ {xs : List Reply}, PlainSeq xs → ∃ vs, values xs = some vs ∧ wireSeq vs = resp3Seq xs
  | [], _ => ⟨[], by rw [values], by rw [resp3Seq, wireSeq]⟩
  | x :: xs, h => by
    rw [PlainSeq] at h
    obtain ⟨v, hv, hx⟩ := wire_of_plain h.1
    obtain ⟨vs, hvs, hxs⟩ := wireSeq_of_plain h.2
    refine ⟨v :: vs, values_cons.mpr ⟨v, vs, hv, hvs, rfl⟩, ?_⟩
    rw [resp3Seq, wireSeq, ← hx, ← hxs, wire]

theorem wireAssoc_of_plain : ∀ {kvs : List (Reply × Reply)}, PlainAssoc kvs →
    ∃ ps, pairValues kvs = some ps ∧ wireAssoc ps = resp3Assoc kvs
  | [], _ => ⟨[], by rw [pairValues], by rw [resp3Assoc, wireAssoc]⟩
  | (k, v) :: kvs, h => by
    rw [PlainAssoc] at h
    obtain ⟨a, ha, hk⟩ := wire_of_plain h.1
    obtain ⟨b, hb, hv⟩ := wire_of_plain h.2.1
    obtain ⟨ps, hps, hkvs⟩ := wireAssoc_of_plain h.2.2
    refine ⟨(a, b) :: ps, pairValues_cons.mpr ⟨a, b, ps, ha, hb, hps, rfl⟩, ?_⟩
    rw [resp3Assoc, wireAssoc, ← hk, ← hv, ← hkvs, wire, wire]

end

theorem Plain.cancel {d : Reply} {v : Value} {r r' : Bytes} (hplain : Plain d) (hv : d.value = some v)
    (h : wire v ++ r = resp3 d ++ r') : Plain d ∧ r = r' := by
  obtain ⟨v', hv', hwire⟩ := wire_of_plain hplain
  rw [hv] at hv'
  cases hv'
  rw [hwire] at h
  exact ⟨hplain, List.append_cancel_left h⟩

mutual

/-- Where the bytes of the value and the serialization go together, with anything
after them, the reply is plain and the same follows. -/
theorem plain_of_wire : ∀ {d : Reply} {v : Value} {r r' : Bytes}, d.value = some v →
    wire v ++ r = resp3 d ++ r' → Plain d ∧ r = r'
  | .simpleString t, v, r, r', hv, h => Plain.cancel (by simp only [Plain]) hv h
  | .error _, _, _, _, hv, _ => nomatch hv
  | .null, v, r, r', hv, h => Plain.cancel (by simp only [Plain]) hv h
  | .int i, v, r, r', hv, h => Plain.cancel (by simp only [Plain]) hv h
  | .bool b, v, r, r', hv, h => by
    rw [Reply.value] at hv
    cases hv
    rw [resp3] at h
    cases b <;> cases h
  | .bigNumber i, v, r, r', hv, h => Plain.cancel (by simp only [Plain]) hv h
  | .bulk k body, v, r, r', hv, h => by
    have hplain : Plain (.bulk k body) := by
      rw [Reply.value] at hv
      split at hv
      · rwa [Plain]
      · cases hv
    exact hplain.cancel hv h
  | .verbatimString encoding body, v, r, r', hv, h => by
    rw [Reply.value] at hv
    split at hv
    · cases hv
      simp only [resp3, wire, payload, List.cons_append, List.append_assoc] at h
      have hlen := (header_unique (List.cons.inj h).2).1
      omega
    · cases hv
  | .group g xs, v, r, r', hv, h => by
    rw [Reply.value, Option.map_eq_some_iff] at hv
    obtain ⟨vs, hvs, rfl⟩ := hv
    rw [wire, payload, values_length hvs] at h
    rw [Plain]
    refine plainSeq_of_wire hvs ?_
    cases g <;> rw [resp3, List.cons_append, List.cons_append, List.append_assoc, List.append_assoc] at h <;>
      exact List.append_cancel_left (List.cons.inj h).2
  | .map kvs, v, r, r', hv, h => by
    rw [Reply.value, Option.map_eq_some_iff] at hv
    obtain ⟨ps, hps, rfl⟩ := hv
    rw [resp3, wire, payload, pairValues_length hps, List.cons_append, List.cons_append, List.append_assoc,
      List.append_assoc] at h
    rw [Plain]
    exact plainAssoc_of_wire hps (List.append_cancel_left (List.cons.inj h).2)

theorem plainSeq_of_wire : ∀ {xs : List Reply} {vs : List Value} {r r' : Bytes}, values xs = some vs →
    wireSeq vs ++ r = resp3Seq xs ++ r' → PlainSeq xs ∧ r = r'
  | [], vs, r, r', hv, h => by
    rw [values] at hv
    cases hv
    rw [resp3Seq, wireSeq] at h
    rw [PlainSeq]
    exact ⟨trivial, h⟩
  | x :: xs, vs, r, r', hv, h => by
    obtain ⟨v, rest, hx, hrest, rfl⟩ := values_cons.mp hv
    rw [resp3Seq, wireSeq, ← wire, List.append_assoc, List.append_assoc] at h
    obtain ⟨hplain, h⟩ := plain_of_wire hx h
    obtain ⟨hplains, h⟩ := plainSeq_of_wire hrest h
    rw [PlainSeq]
    exact ⟨⟨hplain, hplains⟩, h⟩

theorem plainAssoc_of_wire : ∀ {kvs : List (Reply × Reply)} {ps : List (Value × Value)} {r r' : Bytes},
    pairValues kvs = some ps → wireAssoc ps ++ r = resp3Assoc kvs ++ r' → PlainAssoc kvs ∧ r = r'
  | [], ps, r, r', hv, h => by
    rw [pairValues] at hv
    cases hv
    rw [resp3Assoc, wireAssoc] at h
    rw [PlainAssoc]
    exact ⟨trivial, h⟩
  | (k, v) :: kvs, ps, r, r', hv, h => by
    obtain ⟨a, b, rest, hk, hb, hrest, rfl⟩ := pairValues_cons.mp hv
    rw [resp3Assoc, wireAssoc, ← wire, ← wire] at h
    simp only [List.append_assoc] at h
    obtain ⟨hplain, h⟩ := plain_of_wire hk h
    obtain ⟨hplain', h⟩ := plain_of_wire hb h
    obtain ⟨hplains, h⟩ := plainAssoc_of_wire hrest h
    rw [PlainAssoc]
    exact ⟨⟨hplain, hplain', hplains⟩, h⟩

end

/-- **`Encode` speaks the protocol exactly on plain replies**: it succeeds and writes
the serialization of a reply if and only if nothing in it is an error, a boolean, a
verbatim string or a body whose last bytes come with the end of the file. -/
theorem encodes_resp3_iff (fl : Floats) (e : Encoder) {d : Reply} {m : Message} (h : Makes d m) :
    written fl e m = some (resp3 d) ↔ Plain d := by
  cases hv : d.value with
  | none =>
    obtain ⟨a, hstops⟩ := encode_fails fl e hv h
    obtain ⟨n, err, hrun⟩ := hstops ⟨[], ⟨[], []⟩⟩ rfl
    have hnone : written fl e m = none := by rw [written, hrun]
    rw [hnone]
    refine iff_of_false (Option.some_ne_none _).symm fun hplain => ?_
    obtain ⟨v, hsome, -⟩ := wire_of_plain hplain
    rw [hv] at hsome
    cases hsome
  | some v =>
    rw [written_built fl e (built_of_makes hv h), Option.some.injEq]
    constructor
    · intro hwire
      have happend : wire v ++ [] = resp3 d ++ [] := by rw [hwire]
      exact (plain_of_wire hv happend).1
    · intro hplain
      obtain ⟨v', hv', hwire⟩ := wire_of_plain hplain
      rw [hv] at hv'
      cases hv'
      exact hwire

/-- An array of an integer and a bulk string that comes in two pieces. -/
def pieces : Reply :=
  .group .array [.int 7, .bulk .string ⟨[⟨ascii "a", none⟩, ⟨ascii "b", none⟩], by unfold Source.Plain; decide, []⟩]

theorem encodes_resp3_iff_pieces :
    ∃ m, Makes pieces m ∧ written noFloats {} m = some (resp3 pieces) ∧
      resp3 pieces = ascii "*2\r\n:7\r\n$2\r\nab\r\n" := by
  have hmakes : Makes pieces (.ofArray [.ofInt 7, .ofBulkString [⟨ascii "a", none⟩, ⟨ascii "b", none⟩] 2]) := by
    simp only [pieces, Makes, MakesSeq]
    exact ⟨_, ⟨_, _, rfl, ⟨_, _, ⟨2, by decide, rfl⟩, rfl, rfl⟩, rfl⟩, by decide, rfl⟩
  have hplain : Plain pieces := by simp only [pieces, Plain, PlainSeq, and_self]
  exact ⟨_, hmakes, (encodes_resp3_iff noFloats {} hmakes).mpr hplain, by decide⟩

/-- **A boolean is not written as the protocol has it**: `#true` stands for `#t`. -/
theorem not_encodes_resp3 : ¬∀ d m, Makes d m → written noFloats {} m = some (resp3 d) := by
  intro h
  have hwritten := h (.bool true) (.ofBool true) (by rw [Makes])
  exact absurd hwritten (by decide)

end AnarchoRedis.Protocol
