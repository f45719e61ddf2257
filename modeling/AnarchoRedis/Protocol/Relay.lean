import AnarchoRedis.Protocol.Wire

/-! Reading back what is written.

`simpleUnmarshal` finds the end of a line only when the line is not empty, and
then reads exactly the line (`unmarshal_line`); otherwise it reads on into what
follows. Of the messages a pass of `Iterate` builds, those of the simple kinds
carry their kind and are written again as they were read; the aggregates carry
none and are written as a zero byte (`relays_iff`). None is ever yielded
(`iterate_more`), so that the iteration over the encodings of some messages gives
them back only when there are none (`yields_iff`). -/
namespace AnarchoRedis.Protocol
open Base

/-! ### One line -/

theorem not_noEol (a b : Bytes) : ¬ NoEol (a ++ (eol ++ b)) := by
  induction a with
  | nil =>
    intro h
    exact h.1 ⟨rfl, rfl⟩
  | cons c a ih =>
    intro h
    exact ih h.tail

/-- The start of a line does not end in a terminator. -/
theorem drop_ne_eol {a b : Bytes} (h : NoEol (a ++ b)) : a.drop (a.length - eol.length) ≠ eol := by
  intro he
  have hsplit := List.take_append_drop (a.length - eol.length) a
  rw [he] at hsplit
  rw [← hsplit, List.append_assoc] at h
  exact not_noEol _ _ h

/-- `simpleUnmarshal` does not stop within a string whose only terminator is at its start. -/
theorem not_stop {a b : Bytes} (h : NoEol (a ++ b).tail) :
    ¬(a.length > eol.length ∧ a.drop (a.length - eol.length) = eol) := by
  rintro ⟨hlen, hdrop⟩
  cases a with
  | nil => cases hlen
  | cons c a =>
    have hcut : (c :: a).length - eol.length = (a.length - eol.length) + 1 := by
      rw [List.length_cons, eol_length] at hlen ⊢
      omega
    rw [hcut, List.drop_succ_cons] at hdrop
    exact drop_ne_eol h hdrop

theorem drop_concat_ne_eol (a : Bytes) : (a ++ [13]).drop ((a ++ [13]).length - eol.length) ≠ eol := by
  intro he
  have hlast := congrArg List.getLast? he
  rw [List.getLast?_drop] at hlast
  split at hlast
  · cases hlast
  · rw [List.getLast?_concat] at hlast
    exact absurd hlast (by decide)

theorem unmarshalLoop_line (buf : Bytes) {s t : Bytes} {r : Source} (hline : NoEol (buf ++ s).tail)
    (hne : buf ++ s ≠ []) (hp : r.Plain) (hb : r.bytes = s ++ (eol ++ t)) :
    ∃ r', unmarshalLoop buf r = ⟨buf ++ s, (buf ++ s).length + 2, none, r'⟩ ∧ r'.bytes = t ∧ r'.Plain := by
  induction s generalizing buf r with
  | nil =>
    -- the two bytes of the terminator, one after the other
    obtain ⟨r₁, hread₁, hb₁, hp₁⟩ := hp.read_one hb
    obtain ⟨r₂, hread₂, hb₂, hp₂⟩ := hp₁.read_one hb₁
    refine ⟨r₂, ?_, hb₂, hp₂⟩
    rw [List.append_nil] at hne ⊢
    have hlen := List.length_pos_iff.mpr hne
    have htotal : buf ++ [13] ++ [10] = buf ++ eol := by rw [List.append_assoc]; rfl
    have hcut : (buf ++ eol).length - eol.length = buf.length := by simp
    rw [unmarshalLoop_read hread₁, if_neg fun hc => drop_concat_ne_eol buf hc.2, unmarshalLoop_read hread₂, htotal,
      if_pos ⟨by simp; omega, by rw [hcut, List.drop_left]⟩, hcut, List.take_left, List.length_append, eol_length]
  | cons c s ih =>
    obtain ⟨r₁, hread, hb₁, hp₁⟩ := hp.read_one hb
    have hassoc : buf ++ c :: s = (buf ++ [c]) ++ s := by simp
    rw [hassoc] at hline hne ⊢
    obtain ⟨r', hloop, hb', hp'⟩ := ih (buf ++ [c]) hline hne hp₁ hb₁
    refine ⟨r', ?_, hb', hp'⟩
    rw [unmarshalLoop_read hread, if_neg (not_stop hline), hloop]

/-- What `simpleUnmarshal` takes for a line: something, with no terminator but where
it begins. -/
def ReadsLine (line : Bytes) : Prop := line ≠ [] ∧ NoEol line.tail

theorem readsLine_of_noEol {line : Bytes} (hline : NoEol line) (hne : line ≠ []) : ReadsLine line :=
  ⟨hne, noEol_tail hline⟩

/-- **A line that is not empty is read to its terminator and no further.** -/
theorem unmarshal_line {line t : Bytes} {r : Source} (hline : ReadsLine line) (hp : r.Plain)
    (hb : r.bytes = line ++ (eol ++ t)) :
    ∃ r', simpleUnmarshal r = ⟨line, line.length + 2, none, r'⟩ ∧ r'.bytes = t ∧ r'.Plain :=
  unmarshalLoop_line [] hline.2 hline.1 hp hb

theorem read_bytes {r r' : Source} {n : Nat} {b : Bytes} {err : Option Err} (h : r.read n = (b, err, r')) :
    r.bytes = b ++ r'.bytes := by
  cases Source.reads h with
  | ended => rfl
  | whole => rw [Source.bytes, List.flatMap_cons, Source.bytes]
  | part =>
    rw [Source.bytes, Source.bytes, List.flatMap_cons, List.flatMap_cons, ← List.append_assoc,
      List.take_append_drop]

/-- A line that is read without an error has taken more than a terminator. -/
theorem unmarshalLoop_takes (buf : Bytes) (r : Source) (h : (unmarshalLoop buf r).err = none) :
    (unmarshalLoop buf r).rest.bytes.length + 2 < buf.length + r.bytes.length := by
  fun_induction unmarshalLoop buf r with
  | case1 buf r b err r' hr => cases h
  | case2 buf r b r' hr buf' hc =>
    have hlen := congrArg List.length (read_bytes hr)
    rw [List.length_append] at hlen
    have hbuf := hc.1
    simp only [buf', List.length_append, eol_length] at hbuf
    dsimp only
    omega
  | case3 buf r b r' hr buf' hc ih =>
    have hlen := congrArg List.length (read_bytes hr)
    have hbuf : buf'.length = buf.length + b.length := List.length_append
    have htakes := ih h
    rw [List.length_append] at hlen
    omega

theorem unmarshal_takes {r : Source} (h : (simpleUnmarshal r).err = none) :
    (simpleUnmarshal r).rest.bytes.length + 2 < r.bytes.length := by
  have htakes := unmarshalLoop_takes [] r h
  rw [List.length_nil, Nat.zero_add] at htakes
  exact htakes

/-! ### Steps that take nothing from the connection -/

def KeepsConn (s : Step World) : Prop := ∀ w n err w', s w = some (n, err, w') → w'.conn = w.conn

theorem keeps_write (b : Bytes) : KeepsConn (write b) := by
  intro w n err w' h
  cases h
  rfl

theorem keeps_fail (err : Err) : KeepsConn (Step.fail err) := by
  intro w n err w' h
  cases h
  rfl

theorem keeps_crash : KeepsConn Step.crash := by
  intro w n err w' h
  cases h

theorem KeepsConn.andThen {a b : Step World} (ha : KeepsConn a) (hb : KeepsConn b) : KeepsConn (a.andThen b) := by
  intro w n err w' h
  unfold Step.andThen at h
  split at h
  · cases h
  · rename_i hw
    cases h
    exact ha _ _ _ _ hw
  · rename_i hw
    obtain ⟨⟨n₁, err₁, w₁⟩, hrun, hr⟩ := Option.map_eq_some_iff.mp h
    cases hr
    rw [hb _ _ _ _ hrun, ha _ _ _ _ hw]

/-! ### One pass -/

/-- The pass on a reader whose first byte is a kind. -/
theorem iteratePass_kind (fl : Floats) {src : Source} {k : Kind} {t : Bytes} (hp : src.Plain)
    (hb : src.bytes = k.byte :: t) :
    ∃ r, r.bytes = t ∧ r.Plain ∧ iteratePass fl src = kindPass fl k (simpleUnmarshal r) := by
  obtain ⟨r, hread, hbytes, hplain⟩ := hp.read_one hb
  refine ⟨r, hbytes, hplain, ?_⟩
  rw [iteratePass, hread]
  simp only [List.headD_cons, Kind.ofByte_byte]

/-- A message of a simple kind is built from its line. -/
theorem iteratePass_simple (fl : Floats) {src : Source} {k : Kind} {line t : Bytes} {m : Message} (hp : src.Plain)
    (hb : src.bytes = k.byte :: (line ++ (eol ++ t))) (hk : k.category = .simple) (hline : NoEol line)
    (hne : line ≠ []) (hm : simpleMessage fl k line = .ok m) :
    ∃ rest, iteratePass fl src = .built {m with totalMessageSize := 1 + Int64.ofNat (line.length + 2)} rest ∧
      rest.bytes = t := by
  obtain ⟨r, hbytes, hplain, hpass⟩ := iteratePass_kind fl hp hb
  obtain ⟨rest, hread, hrest, _⟩ := unmarshal_line (readsLine_of_noEol hline hne) hplain hbytes
  refine ⟨rest, ?_, hrest⟩
  rw [hpass, kindPass, hk, hread]
  simp only [simplePass, hm]

theorem simpleMessage_kind {fl : Floats} {k : Kind} {str : Bytes} {m : Message} (hk : k.category = .simple)
    (h : simpleMessage fl k str = .ok m) : m.kind = k.byte := by
  cases k with
  | simpleString | error | null =>
    cases h
    rfl
  | int | bool | double | bigNumber =>
    simp only [simpleMessage] at h
    split at h
    · cases h
    · cases h
      rfl
  | _ => cases hk

theorem simplePass_kind {fl : Floats} {k : Kind} {line : LineRead} {m : Message} {rest : Source}
    (hk : k.category = .simple) (h : simplePass fl k line = .built m rest) : m.kind = k.byte := by
  unfold simplePass at h
  split at h
  · cases h
  · split at h
    · cases h
    · rename_i m' hm
      cases h
      show m'.kind = k.byte
      exact simpleMessage_kind hk hm

/-- Encoding a message of a simple kind takes nothing from the connection. -/
theorem encode_simple_conn (fl : Floats) (e : Encoder) {m : Message} {k : Kind} (hm : m.kind = k.byte)
    (hk : k.category = .simple) {w w' : World} {n : Nat} {err : Option Err}
    (h : encode fl e m w = some (n, err, w')) : w'.conn = w.conn := by
  obtain ⟨kind, _, _, _, _, _, _, _, _, _, _, _, _⟩ := m
  obtain rfl : kind = k.byte := hm
  rw [encode, Kind.ofByte_byte] at h
  simp only [hk] at h
  refine (keeps_write _).andThen ?_ w n err w' h
  unfold encodeSimple
  split
  · exact keeps_crash
  · exact keeps_fail _
  · exact keeps_write _

/-- Nothing gives the message of an aggregate its kind. -/
theorem aggregatePass_kind {k : Kind} {line : LineRead} {m : Message} {rest : Source}
    (h : aggregatePass k line = .built m rest) : m.kind = 0 := by
  unfold aggregatePass at h
  split at h
  · cases h
  · split at h
    · cases h
    · dsimp only at h
      split at h
      · split at h
        · cases h
        · cases h
          rfl
        · cases h
      · cases h
        rfl

theorem simplePass_takes {fl : Floats} {k : Kind} {r rest : Source} {m : Message}
    (h : simplePass fl k (simpleUnmarshal r) = .built m rest) : rest.bytes.length + 2 < r.bytes.length := by
  unfold simplePass at h
  split at h
  · cases h
  · rename_i herr
    split at h
    · cases h
    · cases h
      exact unmarshal_takes herr

/-- A message without a kind is written as the byte zero. -/
theorem encode_kind_zero (fl : Floats) (e : Encoder) {m : Message} (h : m.kind = 0) :
    Writes (encode fl e m) [0] := by
  obtain ⟨kind, _, _, _, _, _, _, _, _, _, _, _, _⟩ := m
  obtain rfl : kind = 0 := h
  exact (writes_write [0]).andThen writes_skip

/-! ### Relaying -/

/-- What may be on the wire: a value, or one of the null forms. -/
inductive Wire where
  | value (v : Value)
  | nullBulk
  | nullArray

def Wire.kind : Wire → Kind
  | .value v => v.kind
  | .nullBulk => .bulkString
  | .nullArray => .array

def Wire.payload : Wire → Bytes
  | .value v => Protocol.payload v
  | .nullBulk | .nullArray => formatInt (-1) ++ eol

def Wire.bytes (w : Wire) : Bytes := w.kind.byte :: w.payload

/-- Texts that are not empty, and numbers. -/
def Wire.relayable : Wire → Bool
  | .value (.text line) => !line.bytes.isEmpty
  | .value (.int _) | .value (.bool _) | .value (.bigNumber _) => true
  | _ => false

/-- The message one pass builds is written as the bytes it was read from, and the
connection is left at what follows them. -/
def Relays (fl : Floats) (e : Encoder) (w r : Bytes) (src : Source) : Prop :=
  ∃ m rest, iteratePass fl src = .built m rest ∧
    ∃ n world, encode fl e m ⟨rest, ⟨[], []⟩⟩ = some (n, none, world) ∧
      world.out.out = w ∧ world.conn.bytes = r

section
variable {fl : Floats} {e : Encoder} {src : Source}

theorem relays_simple {k : Kind} {line r : Bytes} {m : Message} (hp : src.Plain)
    (hb : src.bytes = k.byte :: (line ++ eol) ++ r) (hk : k.category = .simple) (hline : NoEol line)
    (hne : line ≠ []) (hm : simpleMessage fl k line = .ok m)
    (hw : ∀ n, Writes (encode fl e {m with totalMessageSize := n}) (k.byte :: (line ++ eol))) :
    Relays fl e (k.byte :: (line ++ eol)) r src := by
  rw [List.cons_append, List.append_assoc] at hb
  obtain ⟨rest, hpass, hrest⟩ := iteratePass_simple fl hp hb hk hline hne hm
  exact ⟨_, rest, hpass, _, _, hw _ ⟨rest, ⟨[], []⟩⟩ rfl, by simp [World.emit], hrest⟩

/-- A line of its terminator alone is read into what follows. -/
theorem not_relays_empty {k : Kind} {r : Bytes} (hp : src.Plain) (hb : src.bytes = k.byte :: eol ++ r)
    (hk : k.category = .simple) : ¬ Relays fl e (k.byte :: eol) r src := by
  rintro ⟨m, rest, hpass, n, world, henc, _, hconn⟩
  rw [List.cons_append] at hb
  obtain ⟨r', hbytes, _, hkind⟩ := iteratePass_kind fl hp hb
  rw [hkind, kindPass, hk] at hpass
  have htakes := simplePass_takes hpass
  rw [encode_simple_conn fl e (simplePass_kind hk hpass) hk henc] at hconn
  rw [hbytes, hconn, List.length_append, eol_length] at htakes
  omega

theorem not_relays_aggregate {k : Kind} {t r : Bytes} (hp : src.Plain) (hb : src.bytes = k.byte :: t ++ r)
    (hk : k.category = .aggregate) : ¬ Relays fl e (k.byte :: t) r src := by
  rintro ⟨m, rest, hpass, n, world, henc, hout, _⟩
  obtain ⟨r', _, _, hkind⟩ := iteratePass_kind fl hp hb
  rw [hkind, kindPass, hk] at hpass
  have hzero := encode_kind_zero fl e (aggregatePass_kind hpass) ⟨rest, ⟨[], []⟩⟩ rfl
  rw [Step.Runs, henc] at hzero
  cases hzero
  exact k.byte_ne_zero (List.cons.inj hout).1.symm

theorem Wire.relayable_of_relays {w : Wire} {r : Bytes} (hp : src.Plain) (hb : src.bytes = w.bytes ++ r)
    (h : Relays fl e w.bytes r src) : w.relayable = true := by
  cases w with
  | nullBulk => exact absurd h (not_relays_aggregate hp hb rfl)
  | nullArray => exact absurd h (not_relays_aggregate hp hb rfl)
  | value v =>
    cases v with
    | text line =>
      cases hl : line.bytes with
      | nil =>
        have hbytes : (Wire.value (.text line)).bytes = Kind.simpleString.byte :: eol := by
          simp only [Wire.bytes, Wire.payload, Protocol.payload, hl, List.nil_append]
          rfl
        rw [hbytes] at h hb
        exact absurd h (not_relays_empty hp hb rfl)
      | cons c t => simp [Wire.relayable, hl]
    | null =>
      have hbytes : (Wire.value .null).bytes = Kind.null.byte :: eol := by
        simp only [Wire.bytes, Wire.payload, Protocol.payload]
        rfl
      rw [hbytes] at h hb
      exact absurd h (not_relays_empty hp hb rfl)
    | int i => rfl
    | bool b => rfl
    | bigNumber i => rfl
    | bulk k body =>
      refine absurd h (not_relays_aggregate hp hb ?_)
      cases k <;> rfl
    | verbatim encoding body => exact absurd h (not_relays_aggregate hp hb rfl)
    | seq k xs =>
      refine absurd h (not_relays_aggregate hp hb ?_)
      cases k <;> rfl
    | assoc k kvs =>
      refine absurd h (not_relays_aggregate hp hb ?_)
      cases k <;> rfl

theorem Wire.relays_of_relayable {w : Wire} {r : Bytes} (hp : src.Plain) (hb : src.bytes = w.bytes ++ r)
    (h : w.relayable = true) : Relays fl e w.bytes r src := by
  cases w with
  | nullBulk | nullArray => cases h
  | value v =>
    cases v with
    | text line =>
      have hne : line.bytes ≠ [] := by simpa [Wire.relayable] using h
      simp only [Wire.bytes, Wire.payload, Protocol.payload] at hb ⊢
      exact relays_simple (k := .simpleString) hp hb rfl line.noEol hne rfl fun n => (writes_write _).andThen (writes_write _)
    | int i =>
      simp only [Wire.bytes, Wire.payload, Protocol.payload] at hb ⊢
      refine relays_simple (k := .int) (m := .ofInt i) hp hb rfl (formatInt_noEol _) (formatInt_ne_nil _) ?_
        fun n => (writes_write _).andThen (writes_write _)
      simp only [simpleMessage, parseInt_formatInt]
    | bool b =>
      simp only [Wire.bytes, Wire.payload, Protocol.payload] at hb ⊢
      refine relays_simple (k := .bool) (m := .ofBool b) hp hb rfl (formatBool_noEol b) (by cases b <;> decide) ?_
        fun n => (writes_write _).andThen (writes_write _)
      simp only [simpleMessage, parseBool_formatBool]
    | bigNumber i =>
      simp only [Wire.bytes, Wire.payload, Protocol.payload] at hb ⊢
      refine relays_simple (k := .bigNumber) (m := .ofBigNumber i) hp hb rfl (formatInt_noEol i)
        (formatInt_ne_nil i) ?_
        fun n => (writes_write _).andThen (writes_write _)
      simp only [simpleMessage, setString_formatInt]
    | null | bulk | verbatim | seq | assoc => cases h

end

/-- **The bytes of a message are relayed unchanged exactly when it is a text that is
not empty or a number**, whatever follows and however the connection delivers it. -/
theorem relays_iff (fl : Floats) (e : Encoder) (w : Wire) (r : Bytes) {src : Source} (hp : src.Plain)
    (hb : src.bytes = w.bytes ++ r) : Relays fl e w.bytes r src ↔ w.relayable = true :=
  ⟨w.relayable_of_relays hp hb, w.relays_of_relayable hp hb⟩

/-- An integer passes, with the next message after it. -/
theorem relays_iff_int :
    Relays noFloats {} (Wire.value (.int 7)).bytes (ascii "+x") [⟨ascii ":7\r\n+x", none⟩] :=
  (relays_iff noFloats {} (.value (.int 7)) (ascii "+x") Source.plain_singleton (by decide)).mpr rfl

/-- **Not every message is relayed unchanged**: `$1\r\na\r\n` becomes a zero byte. -/
theorem not_relays : ¬ ∀ (w : Wire) (r : Bytes) (src : Source), src.Plain → src.bytes = w.bytes ++ r →
    Relays noFloats {} w.bytes r src := by
  intro hall
  have hplain : Source.Plain [⟨ascii "$1\r\na\r\n", none⟩] := Source.plain_singleton
  exact not_relays_aggregate hplain (k := .bulkString) (r := []) (by decide) rfl
    (hall (.value (.bulk .string (ascii "a"))) [] _ hplain (by decide))

/-! ### Iterating -/

/-- Whatever is read, an iteration yields once, the zero message, and ends. -/
theorem iterate_more (fl : Floats) (r : Source) : (iterate fl r).msg = {} ∧ (iterate fl r).more = false := by
  fun_induction iterate fl r with
  | case1 r err rest h => exact ⟨rfl, rfl⟩
  | case2 r m rest h ih => exact ih

/-- Reading a body to its end. -/
inductive ReadsTo : Reader → Source → Bytes → Source → Prop where
  | done {n : Nat} {rd rd' : Reader} {s s' : Source} : 0 < n → rd.read n s = ([], some .eof, rd', s') →
      ReadsTo rd s [] s'
  | more {n : Nat} {rd rd' : Reader} {s s₁ s' : Source} {b body : Bytes} : 0 < n →
      rd.read n s = (b, none, rd', s₁) → ReadsTo rd' s₁ body s' → ReadsTo rd s (b ++ body) s'

section
variable (fl : Floats)

mutual

/-- The message is one of the value: its kind and payload are the value's, and its
body and children, consumed to their end on the connection, are the value's too.
Consuming them takes the connection from the first reader to the second. -/
def Shows : Value → Message → Source → Source → Prop
  | .text line, m, s, s' => m.kind = Kind.simpleString.byte ∧ m.simpleString = line.bytes ∧ s' = s
  | .null, m, s, s' => m.kind = Kind.null.byte ∧ s' = s
  | .int i, m, s, s' => m.kind = Kind.int.byte ∧ m.int = i ∧ s' = s
  | .bool b, m, s, s' => m.kind = Kind.bool.byte ∧ m.bool = b ∧ s' = s
  | .bigNumber i, m, s, s' => m.kind = Kind.bigNumber.byte ∧ m.bigNumber = some i ∧ s' = s
  | .bulk k body, m, s, s' =>
    m.kind = k.kind.byte ∧ m.runLength.toInt = body.length ∧ ∃ rd, m.reader = some rd ∧ ReadsTo rd s body s'
  | .verbatim encoding body, m, s, s' =>
    m.kind = Kind.verbatimString.byte ∧ m.encoding = encoding ∧ m.runLength.toInt = body.length ∧
      ∃ rd, m.reader = some rd ∧ ReadsTo rd s body s'
  | .seq k xs, m, s, s' =>
    m.kind = k.kind.byte ∧ m.runLength.toInt = xs.length ∧ (xs ≠ [] → m.seq = some .conn) ∧ YieldsSeq xs s s'
  | .assoc k kvs, m, s, s' =>
    m.kind = k.kind.byte ∧ m.runLength.toInt = kvs.length ∧ (kvs ≠ [] → m.assoc = some .conn) ∧
      YieldsAssoc kvs s s'

/-- `Iterate` yields messages of the values, each consumed before the next is asked
for. It keeps nothing between two yields but the connection. -/
def YieldsSeq : List Value → Source → Source → Prop
  | [], s, s' => s' = s
  | v :: vs, s, s' =>
    (iterate fl s).err = none ∧ (iterate fl s).more = true ∧
      ∃ s₁, Shows v (iterate fl s).msg (iterate fl s).rest s₁ ∧ YieldsSeq vs s₁ s'

def YieldsAssoc : List (Value × Value) → Source → Source → Prop
  | [], s, s' => s' = s
  | (k, v) :: kvs, s, s' =>
    (iterate fl s).err = none ∧ (iterate fl s).more = true ∧
      ∃ s₁, Shows k (iterate fl s).msg (iterate fl s).rest s₁ ∧
        (iterate fl s₁).err = none ∧ (iterate fl s₁).more = true ∧
          ∃ s₂, Shows v (iterate fl s₁).msg (iterate fl s₁).rest s₂ ∧ YieldsAssoc kvs s₂ s'

end

/-- The messages of the values, then the end of the file once. -/
def YieldsThenEof (vs : List Value) (s : Source) : Prop :=
  ∃ s₁, YieldsSeq fl vs s s₁ ∧ (iterate fl s₁).err = some .eof ∧ (iterate fl s₁).more = false

/-- `Decode` returns a message of the value. -/
def Decodes (v : Value) (s : Source) : Prop :=
  (decode fl s).2.1 = none ∧ ∃ s', Shows fl v (decode fl s).1 (decode fl s).2.2 s'

end

theorem shows_kind {fl : Floats} {v : Value} {m : Message} {s s' : Source} (h : Shows fl v m s s') :
    m.kind = v.kind.byte := by
  cases v <;> simp only [Shows] at h <;> exact h.1

/-- What `Decode` returns has no kind. -/
theorem not_decodes (fl : Floats) (v : Value) (s : Source) : ¬ Decodes fl v s := by
  rintro ⟨_, s', hshows⟩
  have hkind := shows_kind hshows
  rw [decode, (iterate_more fl s).1] at hkind
  exact v.kind.byte_ne_zero hkind.symm

theorem iterate_nil (fl : Floats) : iterate fl [] = ⟨{}, some .eof, [], false⟩ :=
  iterate_stop rfl

theorem not_yieldsThenEof_cons (fl : Floats) (v : Value) (vs : List Value) (s : Source) :
    ¬ YieldsThenEof fl (v :: vs) s := by
  rintro ⟨s₁, hyields, _⟩
  rw [YieldsSeq, (iterate_more fl s).2] at hyields
  exact absurd hyields.2.1 (by decide)

/-- **Iterating over the encodings of some messages gives the messages back exactly
when there are none**; decoding gives back no message at all. -/
theorem yields_iff (fl : Floats) (vs : List Value) {src : Source} (hp : src.Plain)
    (hb : src.bytes = vs.flatMap wire) :
    (YieldsThenEof fl vs src ↔ vs = []) ∧ ∀ v, vs = [v] → ¬ Decodes fl v src := by
  refine ⟨⟨?_, ?_⟩, fun v _ => not_decodes fl v src⟩
  · intro h
    cases vs with
    | nil => rfl
    | cons v vs => exact absurd h (not_yieldsThenEof_cons fl v vs src)
  · rintro rfl
    rw [hp.eq_nil hb]
    exact ⟨[], by rw [YieldsSeq], by rw [iterate_nil], by rw [iterate_nil]⟩

theorem yields_iff_nil : YieldsThenEof noFloats [] [] ∧ ¬ YieldsThenEof noFloats [.int 1] [⟨ascii ":1\r\n", none⟩] := by
  refine ⟨(yields_iff noFloats [] Source.plain_nil rfl).1.mpr rfl, fun h => ?_⟩
  cases (yields_iff noFloats [.int 1] Source.plain_singleton (by decide)).1.mp h

/-- **One integer is not given back.** -/
theorem not_yields : ¬ ∀ (vs : List Value) (src : Source), src.Plain → src.bytes = vs.flatMap wire →
    YieldsThenEof noFloats vs src := by
  intro hall
  exact not_yieldsThenEof_cons noFloats (.int 1) [] _
    (hall [.int 1] [⟨ascii ":1\r\n", none⟩] Source.plain_singleton (by decide))

end AnarchoRedis.Protocol
