import AnarchoRedis.Protocol.Coder

/-! What a message says, and its bytes.

A `Value` is a message as a reader of the protocol understands it: its kind, its
payload, its children in order, without the readers and iterators that hold them.
`wire` is its bytes. A message the constructors build from a value, its bodies
read from readers that deliver them in any pieces (`Built`), is encoded to those bytes
(`encode_writes`), and the bytes determine the value and where it ends
(`wire_unique`), so that no body can be taken for the end of a message
(`encode_unique`). -/
namespace AnarchoRedis.Protocol
open Base

inductive BulkKind where
  | string
  | error
  deriving DecidableEq

inductive SeqKind where
  | array
  | set
  | push
  deriving DecidableEq

inductive AssocKind where
  | map
  | attribute
  deriving DecidableEq

def BulkKind.kind : BulkKind → Kind
  | .string => .bulkString
  | .error => .bulkError

def SeqKind.kind : SeqKind → Kind
  | .array => .array
  | .set => .set
  | .push => .push

def AssocKind.kind : AssocKind → Kind
  | .map => .map
  | .attribute => .attribute

inductive Value where
  | text (line : Line)
  | null
  | int (i : Int64)
  | bool (b : Bool)
  | bigNumber (i : Int)
  | bulk (k : BulkKind) (body : Bytes)
  | verbatim (encoding : Encoding) (body : Bytes)
  | seq (k : SeqKind) (xs : List Value)
  | assoc (k : AssocKind) (kvs : List (Value × Value))

def Value.kind : Value → Kind
  | .text _ => .simpleString
  | .null => .null
  | .int _ => .int
  | .bool _ => .bool
  | .bigNumber _ => .bigNumber
  | .bulk k _ => k.kind
  | .verbatim .. => .verbatimString
  | .seq k _ => k.kind
  | .assoc k _ => k.kind

/-- The line that gives a length or a count. -/
def header (n : Nat) : Bytes := formatInt n ++ eol

mutual

/-- The bytes of a value after its kind. -/
def payload : Value → Bytes
  | .text line => line.bytes ++ eol
  | .null => eol
  | .int i => formatInt i.toInt ++ eol
  | .bool b => formatBool b ++ eol
  | .bigNumber i => formatInt i ++ eol
  | .bulk _ body => header body.length ++ (body ++ eol)
  | .verbatim encoding body => header body.length ++ (encoding.bytes ++ eol ++ (body ++ eol))
  | .seq _ xs => header xs.length ++ wireSeq xs
  | .assoc _ kvs => header kvs.length ++ wireAssoc kvs

def wireSeq : List Value → Bytes
  | [] => []
  | x :: xs => x.kind.byte :: payload x ++ wireSeq xs

def wireAssoc : List (Value × Value) → Bytes
  | [] => []
  | (k, v) :: kvs => k.kind.byte :: payload k ++ (v.kind.byte :: payload v ++ wireAssoc kvs)

end

def wire (v : Value) : Bytes := v.kind.byte :: payload v

/-! ### Messages built from values -/

def BulkKind.message (k : BulkKind) (source : Source) (runLength : Int64) : Message :=
  match k with
  | .string => .ofBulkString source runLength
  | .error => .ofBulkError source runLength

def SeqKind.message (k : SeqKind) (ms : List Message) : Message :=
  {kind := k.kind.byte, seq := some (Message.yields ms), runLength := Int64.ofNat ms.length}

def AssocKind.message (k : AssocKind) (kvs : List (Message × Message)) : Message :=
  {kind := k.kind.byte, assoc := some (Message.yields kvs), runLength := Int64.ofNat kvs.length}

mutual

/-- The message is one that the constructors build from the value, its bodies behind
readers that `R` allows for them. -/
def BuiltWith (R : Source → Int64 → Bytes → Prop) : Value → Message → Prop
  | .text line, m => m = .ofSimpleString line.bytes
  | .null, m => m = .ofNull
  | .int i, m => m = .ofInt i
  | .bool b, m => m = .ofBool b
  | .bigNumber i, m => m = .ofBigNumber i
  | .bulk k body, m => ∃ source n, R source n body ∧ m = k.message source n
  | .verbatim encoding body, m => ∃ source n, R source n body ∧ m = .ofVerbatimString source n encoding
  | .seq k xs, m => ∃ ms, BuiltSeqWith R xs ms ∧ xs.length < 2 ^ 63 ∧ m = k.message ms
  | .assoc k kvs, m => ∃ ms, BuiltAssocWith R kvs ms ∧ kvs.length < 2 ^ 63 ∧ m = k.message ms

def BuiltSeqWith (R : Source → Int64 → Bytes → Prop) : List Value → List Message → Prop
  | [], ms => ms = []
  | x :: xs, ms => ∃ m rest, BuiltWith R x m ∧ BuiltSeqWith R xs rest ∧ ms = m :: rest

def BuiltAssocWith (R : Source → Int64 → Bytes → Prop) : List (Value × Value) → List (Message × Message) → Prop
  | [], ms => ms = []
  | (k, v) :: kvs, ms =>
    ∃ mk mv rest, BuiltWith R k mk ∧ BuiltWith R v mv ∧ BuiltAssocWith R kvs rest ∧ ms = (mk, mv) :: rest

end

/-- A reader that delivers the body whole and without an error, in any pieces. Readers
that hand over their last bytes together with `io.EOF` are left out: `Encode` drops these
bytes (`Supplies` has them). -/
structure Delivers (source : Source) (runLength : Int64) (body : Bytes) : Prop where
  calm : source.Calm
  bytes : source.bytes = body
  length : runLength.toInt = body.length

/-- The message is one that the constructors build from the value, which holds no error and
no double, where every reader delivers its body. -/
abbrev Built : Value → Message → Prop := BuiltWith Delivers

abbrev BuiltSeq : List Value → List Message → Prop := BuiltSeqWith Delivers

abbrev BuiltAssoc : List (Value × Value) → List (Message × Message) → Prop := BuiltAssocWith Delivers

theorem pairs_flatten {α : Type} (kvs : List (α × α)) :
    Message.pairs (kvs.flatMap fun kv => [kv.1, kv.2]) = some kvs := by
  induction kvs with
  | nil => rfl
  | cons kv kvs ih =>
    simp only [List.flatMap_cons, List.cons_append, List.nil_append, Message.pairs, ih, Option.map_some]

/-- `Map` takes keys and values in turn. -/
theorem ofMap_eq (kvs : List (Message × Message)) :
    Message.ofMap (kvs.flatMap fun kv => [kv.1, kv.2]) = some (AssocKind.map.message kvs) := by
  have hlen : (kvs.flatMap fun kv => [kv.1, kv.2]).length / 2 = kvs.length := by
    have : (kvs.flatMap fun kv => [kv.1, kv.2]).length = 2 * kvs.length := by
      induction kvs with
      | nil => rfl
      | cons kv kvs ih =>
        rw [List.flatMap_cons, List.length_append, ih]
        simp only [List.length_cons, List.length_nil]
        omega
    omega
  rw [Message.ofMap, pairs_flatten, Option.map_some, hlen]
  rfl

theorem BuiltSeqWith.length {R : Source → Int64 → Bytes → Prop} {xs : List Value} {ms : List Message}
    (h : BuiltSeqWith R xs ms) : ms.length = xs.length := by
  induction xs generalizing ms with
  | nil =>
    rw [BuiltSeqWith] at h
    rw [h]
    rfl
  | cons x xs ih =>
    rw [BuiltSeqWith] at h
    obtain ⟨m, rest, _, hrest, rfl⟩ := h
    rw [List.length_cons, List.length_cons, ih hrest]

theorem BuiltAssocWith.length {R : Source → Int64 → Bytes → Prop} {kvs : List (Value × Value)}
    {ms : List (Message × Message)} (h : BuiltAssocWith R kvs ms) : ms.length = kvs.length := by
  induction kvs generalizing ms with
  | nil =>
    rw [BuiltAssocWith] at h
    rw [h]
    rfl
  | cons kv kvs ih =>
    rw [BuiltAssocWith] at h
    obtain ⟨mk, mv, rest, _, _, hrest, rfl⟩ := h
    rw [List.length_cons, List.length_cons, ih hrest]

/-! ### Encoding writes the bytes -/

/-- The world with more written. -/
def World.emit (w : World) (b : Bytes) : World := {w with out := {w.out with out := w.out.out ++ b}}

theorem World.emit_emit (w : World) (a b : Bytes) : (w.emit a).emit b = w.emit (a ++ b) := by
  simp [World.emit, List.append_assoc]

theorem World.emit_nil (w : World) : w.emit [] = w := by
  simp [World.emit]

/-- On a writer that does not fail the step writes the bytes, counts them, and does
nothing else. -/
def Writes (s : Step World) (b : Bytes) : Prop := ∀ w, w.out.faults = [] → s.Runs w b.length (w.emit b)

/-- On a writer that does not fail the step writes the bytes and fails. -/
def Stops (s : Step World) (b : Bytes) : Prop :=
  ∀ w, w.out.faults = [] → ∃ n err, s w = some (n, some err, w.emit b)

theorem writes_write (b : Bytes) : Writes (write b) b := by
  intro w hw
  unfold Step.Runs write Writer.write
  rw [hw]
  simp [World.emit, hw]

theorem writes_skip : Writes Step.skip [] := by
  intro w _
  rw [World.emit_nil]
  exact Step.runs_skip w

theorem Writes.andThen {s t : Step World} {a b : Bytes} (hs : Writes s a) (ht : Writes t b) :
    Writes (s.andThen t) (a ++ b) := by
  intro w hw
  rw [List.length_append, ← World.emit_emit]
  exact (hs w hw).andThen (ht (w.emit a) hw)

theorem Stops.andThen {s : Step World} {b : Bytes} (h : Stops s b) (t : Step World) : Stops (s.andThen t) b := by
  intro w hw
  obtain ⟨n, err, hs⟩ := h w hw
  exact ⟨n, err, by rw [Step.andThen, hs]⟩

theorem Writes.stops {s t : Step World} {a b : Bytes} (hs : Writes s a) (ht : Stops t b) :
    Stops (s.andThen t) (a ++ b) := by
  intro w hw
  obtain ⟨n, err, hstop⟩ := ht (w.emit a) hw
  have hrun : s w = some (a.length, none, w.emit a) := hs w hw
  exact ⟨a.length + n, err, by rw [Step.andThen, hrun]; simp only [hstop, Option.map_some, World.emit_emit]⟩

section
variable {chunkSize left : Int} {source rest : Source} {b : Bytes} {w : World}

/-- One call of `Write` on a writer that does not fail. -/
theorem World.write_plain (hw : w.out.faults = []) (b : Bytes) : w.out.write b = (b.length, none, (w.emit b).out) := by
  rw [Writer.write, hw]
  simp [World.emit, hw]

theorem read_own {n : Nat} {err : Option Err} (h : source.read n = (b, err, rest)) (conn : Source) :
    Reader.read n conn (.own source) = (b, err, .own rest, conn) := by
  rw [Reader.read, h]

theorem bulkLoop_round (hpos : 0 < left) (hread : source.read (emptyBuffer chunkSize left) = (b, none, rest))
    (hw : w.out.faults = []) :
    bulkLoop chunkSize left (.own source) w =
      (bulkLoop chunkSize (left - b.length) (.own rest) (w.emit b)).map fun x => (b.length + x.1, x.2) := by
  rw [bulkLoop_read hpos (read_own hread w.conn), w.write_plain hw]
  rfl

theorem bulkLoop_error {err : Err} (hpos : 0 < left)
    (hread : source.read (emptyBuffer chunkSize left) = (b, some err, rest)) :
    bulkLoop chunkSize left (.own source) w = some (0, some err, w) :=
  bulkLoop_readError hpos (read_own hread w.conn)

/-- A reader that has enough before its first error: the bytes asked for are written, and
the terminator. -/
theorem bulkLoop_clear (chunkSize : Int) {n : Nat} (hn : n ≤ source.clear.length) (hw : w.out.faults = []) :
    bulkLoop chunkSize n (.own source) w = some (n + 2, none, w.emit (source.clear.take n ++ eol)) := by
  induction hsize : source.size using Nat.strong_induction_on generalizing source w n with
  | _ size ih =>
    by_cases hzero : n = 0
    · subst hzero
      rw [bulkLoop, dif_neg (by decide)]
      exact writes_write eol w hw
    · have hpos : 0 < (n : Int) := by omega
      have hbuffer := emptyBuffer_le chunkSize n
      obtain ⟨b, rest, hread, hlen, hclear⟩ := Source.read_clear (emptyBuffer_pos chunkSize hpos) (hbuffer.trans hn)
      have hsmaller := Source.read_size (emptyBuffer_pos chunkSize hpos) hread
      have hfits : b.length ≤ n := hlen.trans hbuffer
      have hcount := congrArg List.length hclear
      rw [List.length_append] at hcount
      have hleft : (n : Int) - b.length = (n - b.length : Nat) := by omega
      have hrest := ih rest.size (by omega) (w := w.emit b) (n := n - b.length) (by omega) hw rfl
      have htotal : b.length + (n - b.length + 2) = n + 2 := by omega
      have htake : source.clear.take n = b ++ rest.clear.take (n - b.length) := by
        rw [hclear, List.take_append, List.take_of_length_le hfits]
      rw [bulkLoop_round hpos hread hw, hleft, hrest, Option.map_some, World.emit_emit, htake, List.append_assoc, htotal]

/-- A reader that has less fails, with some of that written. -/
theorem bulkLoop_beyond (chunkSize : Int) {n : Nat} (hn : source.clear.length < n) :
    ∃ a, a <+: source.clear ∧ Stops (bulkLoop chunkSize n (.own source)) a := by
  induction hsize : source.size using Nat.strong_induction_on generalizing source n with
  | _ size ih =>
    have hpos : 0 < (n : Int) := by omega
    rcases hread : source.read (emptyBuffer chunkSize n) with ⟨b, _ | err, rest⟩
    · have hsmaller := Source.read_size (emptyBuffer_pos chunkSize hpos) hread
      have hclear := Source.clear_read hread
      have hcount := congrArg List.length hclear
      rw [List.length_append] at hcount
      have hleft : (n : Int) - b.length = (n - b.length : Nat) := by omega
      obtain ⟨a, hbegins, hstops⟩ := ih rest.size (by omega) (n := n - b.length) (by omega) rfl
      refine ⟨b ++ a, ?_, fun w hw => ?_⟩
      · rw [hclear]
        exact (List.prefix_append_right_inj b).mpr hbegins
      · obtain ⟨k, err, hrest⟩ := hstops (w.emit b) hw
        exact ⟨b.length + k, err, by rw [bulkLoop_round hpos hread hw, hleft, hrest, Option.map_some, World.emit_emit]⟩
    · exact ⟨[], List.nil_prefix, fun w _ => ⟨0, err, by rw [bulkLoop_error hpos hread, World.emit_nil]⟩⟩

theorem bulkLoop_full (chunkSize : Int) {n : Nat} (h : source.Calm) (hn : n ≤ source.bytes.length)
    (hw : w.out.faults = []) :
    bulkLoop chunkSize n (.own source) w = some (n + 2, none, w.emit (source.bytes.take n ++ eol)) := by
  rw [← h.clear] at hn ⊢
  exact bulkLoop_clear chunkSize hn hw

end

theorem writes_bulkLoop (chunkSize : Int) {source : Source} (h : source.Calm) :
    Writes (bulkLoop chunkSize source.bytes.length (.own source)) (source.bytes ++ eol) := by
  intro w hw
  have hfull := bulkLoop_full chunkSize h le_rfl hw
  rw [List.take_length] at hfull
  unfold Step.Runs
  rw [hfull, List.length_append, eol_length]

theorem writes_writeBulk (e : Encoder) {source : Source} {n : Int64} {body : Bytes} {m : Message}
    (h : Delivers source n body) (hr : m.reader = some (.own source)) (hn : m.runLength = n) :
    Writes (writeBulk e m) (body ++ eol) := by
  unfold writeBulk
  rw [hr, hn, h.length, ← h.bytes]
  exact writes_bulkLoop e.chunkSize.toInt h.calm

theorem toInt_ofNat {n : Nat} (h : n < 2 ^ 63) : (Int64.ofNat n).toInt = n := Int64.toInt_ofNat_of_lt h

section
variable (fl : Floats) (e : Encoder)

/-- The shape of every aggregate but the verbatim string. -/
theorem writes_header {n : Int64} {len : Nat} {s : Step World} {b : Bytes} (hn : n.toInt = len) (hs : Writes s b) :
    Writes ((write (formatInt n.toInt)).andThen ((write eol).andThen (Step.skip.andThen s))) (header len ++ b) := by
  rw [hn, header, List.append_assoc]
  exact (writes_write _).andThen ((writes_write eol).andThen (writes_skip.andThen hs))

mutual

/-- **`Encode` writes the bytes of the value a message is built from.** -/
theorem encode_writes : ∀ (v : Value) (m : Message), Built v m → Writes (encode fl e m) (wire v)
  | .text line, m, h => by
    rw [Built, BuiltWith] at h
    subst h
    exact (writes_write _).andThen (writes_write _)
  | .null, m, h => by
    rw [Built, BuiltWith] at h
    subst h
    exact (writes_write _).andThen (writes_write _)
  | .int i, m, h => by
    rw [Built, BuiltWith] at h
    subst h
    exact (writes_write _).andThen (writes_write _)
  | .bool b, m, h => by
    rw [Built, BuiltWith] at h
    subst h
    exact (writes_write _).andThen (writes_write _)
  | .bigNumber i, m, h => by
    rw [Built, BuiltWith] at h
    subst h
    exact (writes_write _).andThen (writes_write _)
  | .bulk k body, m, h => by
    rw [Built, BuiltWith] at h
    obtain ⟨source, n, hd, rfl⟩ := h
    rw [wire, payload]
    cases k with
    | string => exact (writes_write _).andThen (writes_header hd.length (writes_writeBulk e hd rfl rfl))
    | error => exact (writes_write _).andThen (writes_header hd.length (writes_writeBulk e hd rfl rfl))
  | .verbatim encoding body, m, h => by
    rw [Built, BuiltWith] at h
    obtain ⟨source, n, hd, rfl⟩ := h
    rw [wire, payload, header, List.append_assoc, ← hd.length]
    exact (writes_write _).andThen ((writes_write _).andThen ((writes_write eol).andThen
      (((writes_write _).andThen (writes_write eol)).andThen (writes_writeBulk e hd rfl rfl))))
  | .seq k xs, m, h => by
    rw [Built, BuiltWith] at h
    obtain ⟨ms, hms, hlen, rfl⟩ := h
    have hitems := encodeItems_writes xs ms hms
    have hn : (Int64.ofNat ms.length).toInt = xs.length := by rw [hms.length, toInt_ofNat hlen]
    rw [wire, payload]
    cases k with
    | array => exact (writes_write _).andThen (writes_header hn hitems)
    | set => exact (writes_write _).andThen (writes_header hn hitems)
    | push => exact (writes_write _).andThen (writes_header hn hitems)
  | .assoc k kvs, m, h => by
    rw [Built, BuiltWith] at h
    obtain ⟨ms, hms, hlen, rfl⟩ := h
    have hpairs := encodePairs_writes kvs ms hms
    have hn : (Int64.ofNat ms.length).toInt = kvs.length := by rw [hms.length, toInt_ofNat hlen]
    rw [wire, payload]
    cases k with
    | map => exact (writes_write _).andThen (writes_header hn hpairs)
    | _ => exact (writes_write _).andThen (writes_header hn hpairs)

theorem encodeItems_writes : ∀ (xs : List Value) (ms : List Message), BuiltSeq xs ms →
    Writes (encodeItems fl e (ms.map fun m => (m, none))) (wireSeq xs)
  | [], ms, h => by
    rw [BuiltSeq, BuiltSeqWith] at h
    subst h
    exact writes_skip
  | x :: xs, ms, h => by
    rw [BuiltSeq, BuiltSeqWith] at h
    obtain ⟨m, rest, hm, hrest, rfl⟩ := h
    rw [wireSeq, List.map_cons, encodeItems]
    exact (encode_writes x m hm).andThen (encodeItems_writes xs rest hrest)

theorem encodePairs_writes : ∀ (kvs : List (Value × Value)) (ms : List (Message × Message)), BuiltAssoc kvs ms →
    Writes (encodePairs fl e (ms.map fun m => (m, none))) (wireAssoc kvs)
  | [], ms, h => by
    rw [BuiltAssoc, BuiltAssocWith] at h
    subst h
    exact writes_skip
  | (k, v) :: kvs, ms, h => by
    rw [BuiltAssoc, BuiltAssocWith] at h
    obtain ⟨mk, mv, rest, hk, hv, hrest, rfl⟩ := h
    rw [wireAssoc, List.map_cons, encodePairs]
    exact (encode_writes k mk hk).andThen
      ((encode_writes v mv hv).andThen (encodePairs_writes kvs rest hrest))

end

end

/-! ### The bytes determine the value -/

/-- Two values of one kind. -/
inductive Alike : Value → Value → Prop where
  | text (line line' : Line) : Alike (.text line) (.text line')
  | null : Alike .null .null
  | int (i i' : Int64) : Alike (.int i) (.int i')
  | bool (b b' : Bool) : Alike (.bool b) (.bool b')
  | bigNumber (i i' : Int) : Alike (.bigNumber i) (.bigNumber i')
  | bulk (k : BulkKind) (body body' : Bytes) : Alike (.bulk k body) (.bulk k body')
  | verbatim (encoding encoding' : Encoding) (body body' : Bytes) :
      Alike (.verbatim encoding body) (.verbatim encoding' body')
  | seq (k : SeqKind) (xs xs' : List Value) : Alike (.seq k xs) (.seq k xs')
  | assoc (k : AssocKind) (kvs kvs' : List (Value × Value)) : Alike (.assoc k kvs) (.assoc k kvs')

theorem alike_of_kind {v v' : Value} (h : v.kind = v'.kind) : Alike v v' := by
  cases v <;> cases v' <;> simp only [Value.kind] at h
  case bulk.bulk k _ k' _ =>
    obtain rfl : k = k' := by
      cases k <;> cases k' <;> first | rfl | cases h
    exact .bulk ..
  case seq.seq k _ k' _ =>
    obtain rfl : k = k' := by
      cases k <;> cases k' <;> first | rfl | cases h
    exact .seq ..
  case assoc.assoc k _ k' _ =>
    obtain rfl : k = k' := by
      cases k <;> cases k' <;> first | rfl | cases h
    exact .assoc ..
  all_goals first | constructor | cases h | (rename_i k _; cases k <;> cases h) |
    (rename_i k _ k' _; cases k <;> cases k' <;> cases h) | (rename_i k _ _; cases k <;> cases h)

theorem formatBool_noEol (b : Bool) : NoEol (formatBool b) := by
  cases b <;> decide

theorem formatBool_injective : Function.Injective formatBool := by
  intro a b h
  have := parseBool_formatBool a
  rw [h, parseBool_formatBool] at this
  exact (Except.ok.inj this).symm

theorem header_unique {n n' : Nat} {a a' : Bytes} (h : header n ++ a = header n' ++ a') : n = n' ∧ a = a' := by
  simp only [header, List.append_assoc] at h
  obtain ⟨hn, ha⟩ := line_unique (formatInt_noEol _) (formatInt_noEol _) h
  exact ⟨Int.ofNat.inj (formatInt_injective hn), ha⟩

mutual

theorem payload_unique : ∀ (v v' : Value) (r r' : Bytes), Alike v v' → payload v ++ r = payload v' ++ r' →
    v = v' ∧ r = r'
  | .text line, _, r, r', .text _ line', h => by
    simp only [payload, List.append_assoc] at h
    obtain ⟨hline, hr⟩ := line_unique line.noEol line'.noEol h
    exact ⟨by rw [Line.ext_bytes hline], hr⟩
  | .null, _, r, r', .null, h => by
    simp only [payload] at h
    exact ⟨rfl, List.append_cancel_left h⟩
  | .int i, _, r, r', .int _ i', h => by
    simp only [payload, List.append_assoc] at h
    obtain ⟨hi, hr⟩ := line_unique (formatInt_noEol _) (formatInt_noEol _) h
    exact ⟨by rw [Int64.toInt_inj.mp (formatInt_injective hi)], hr⟩
  | .bool b, _, r, r', .bool _ b', h => by
    simp only [payload, List.append_assoc] at h
    obtain ⟨hb, hr⟩ := line_unique (formatBool_noEol b) (formatBool_noEol b') h
    exact ⟨by rw [formatBool_injective hb], hr⟩
  | .bigNumber i, _, r, r', .bigNumber _ i', h => by
    simp only [payload, List.append_assoc] at h
    obtain ⟨hi, hr⟩ := line_unique (formatInt_noEol i) (formatInt_noEol i') h
    exact ⟨by rw [formatInt_injective hi], hr⟩
  | .bulk k body, _, r, r', .bulk _ _ body', h => by
    simp only [payload, List.append_assoc] at h
    obtain ⟨hlen, hbody⟩ := header_unique h
    obtain ⟨rfl, hr⟩ := List.append_inj hbody hlen
    exact ⟨rfl, List.append_cancel_left hr⟩
  | .verbatim encoding body, _, r, r', .verbatim _ encoding' _ body', h => by
    simp only [payload, List.append_assoc] at h
    obtain ⟨hlen, htail⟩ := header_unique h
    -- the encoding is three bytes, whatever they are
    obtain ⟨henc, hbody⟩ := List.append_inj htail rfl
    obtain ⟨rfl, hr⟩ := List.append_inj (List.append_cancel_left hbody) hlen
    simp only [Encoding.bytes, List.cons.injEq, and_true] at henc
    refine ⟨?_, List.append_cancel_left hr⟩
    rw [show encoding = encoding' by cases encoding; cases encoding'; simp_all]
  | .seq k xs, _, r, r', .seq _ _ xs', h => by
    simp only [payload, List.append_assoc] at h
    obtain ⟨hlen, hxs⟩ := header_unique h
    obtain ⟨rfl, hr⟩ := wireSeq_unique xs xs' r r' hlen hxs
    exact ⟨rfl, hr⟩
  | .assoc k kvs, _, r, r', .assoc _ _ kvs', h => by
    simp only [payload, List.append_assoc] at h
    obtain ⟨hlen, hkvs⟩ := header_unique h
    obtain ⟨rfl, hr⟩ := wireAssoc_unique kvs kvs' r r' hlen hkvs
    exact ⟨rfl, hr⟩

theorem wireSeq_unique : ∀ (xs xs' : List Value) (r r' : Bytes), xs.length = xs'.length →
    wireSeq xs ++ r = wireSeq xs' ++ r' → xs = xs' ∧ r = r'
  | [], [], r, r', _, h => ⟨rfl, h⟩
  | [], _ :: _, _, _, hlen, _ => by cases hlen
  | _ :: _, [], _, _, hlen, _ => by cases hlen
  | x :: xs, x' :: xs', r, r', hlen, h => by
    simp only [wireSeq, List.append_assoc, List.cons_append, List.cons.injEq] at h
    obtain ⟨hkind, hx⟩ := h
    obtain ⟨rfl, hxs⟩ := payload_unique x x' _ _ (alike_of_kind (Kind.byte_injective hkind)) hx
    obtain ⟨rfl, hr⟩ := wireSeq_unique xs xs' r r' (Nat.succ.inj hlen) hxs
    exact ⟨rfl, hr⟩

theorem wireAssoc_unique : ∀ (kvs kvs' : List (Value × Value)) (r r' : Bytes), kvs.length = kvs'.length →
    wireAssoc kvs ++ r = wireAssoc kvs' ++ r' → kvs = kvs' ∧ r = r'
  | [], [], r, r', _, h => ⟨rfl, h⟩
  | [], _ :: _, _, _, hlen, _ => by cases hlen
  | _ :: _, [], _, _, hlen, _ => by cases hlen
  | (k, v) :: kvs, (k', v') :: kvs', r, r', hlen, h => by
    simp only [wireAssoc, List.append_assoc, List.cons_append, List.cons.injEq] at h
    obtain ⟨hkey, hk⟩ := h
    obtain ⟨rfl, hrest⟩ := payload_unique k k' _ _ (alike_of_kind (Kind.byte_injective hkey)) hk
    obtain ⟨hvalue, hv⟩ := List.cons.inj hrest
    obtain ⟨rfl, hkvs⟩ := payload_unique v v' _ _ (alike_of_kind (Kind.byte_injective hvalue)) hv
    obtain ⟨rfl, hr⟩ := wireAssoc_unique kvs kvs' r r' (Nat.succ.inj hlen) hkvs
    exact ⟨rfl, hr⟩

end

/-- **The bytes determine the value and where it ends**, whatever follows. -/
theorem wire_unique {v v' : Value} {r r' : Bytes} (h : wire v ++ r = wire v' ++ r') : v = v' ∧ r = r' := by
  simp only [wire, List.cons_append, List.cons.injEq] at h
  exact payload_unique v v' r r' (alike_of_kind (Kind.byte_injective h.1)) h.2

/-- What `Encode` writes when it succeeds. -/
def written (fl : Floats) (e : Encoder) (m : Message) : Option Bytes :=
  match encode fl e m ⟨[], ⟨[], []⟩⟩ with
  | some (_, none, w) => some w.out.out
  | _ => none

theorem written_built (fl : Floats) (e : Encoder) {v : Value} {m : Message} (h : Built v m) :
    written fl e m = some (wire v) := by
  have hrun := encode_writes fl e v m h ⟨[], ⟨[], []⟩⟩ rfl
  rw [written, show encode fl e m ⟨[], ⟨[], []⟩⟩ = _ from hrun]
  rfl

/-- Where what `Encode` writes for two messages, each with anything after it, is the same,
they are messages of the same value and the same follows. -/
theorem encode_unique (fl : Floats) (e e' : Encoder) {v v' : Value} {m m' : Message} (h : Built v m)
    (h' : Built v' m') :
    ∃ b b', written fl e m = some b ∧ written fl e' m' = some b' ∧
      ∀ r r', b ++ r = b' ++ r' → v = v' ∧ r = r' :=
  ⟨wire v, wire v', written_built fl e h, written_built fl e' h', fun _ _ => wire_unique⟩

end AnarchoRedis.Protocol
