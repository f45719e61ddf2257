import AnarchoRedis.Protocol.Wire

/-! Messages told apart by their bytes.

A reader may hand over its last bytes together with `io.EOF`. `writeBulk` then drops
them and `Encode` fails with the message half written (`Cuts`): what is on the writer is
a beginning of the bytes of the value, and short of them (`encode_sends`). So a message
is told apart from the others by what `Encode` writes for it exactly when no reader in it
is of that kind (`encode_unique_iff`). -/
namespace AnarchoRedis.Protocol
open Base

/-- A reader that holds the body: pieces without an error, where the end of the file may
come together with the last one. -/
structure Supplies (source : Source) (runLength : Int64) (body : Bytes) : Prop where
  ends : source.Calm ∨ source.EndsAtOnce
  bytes : source.bytes = body
  length : runLength.toInt = body.length

/-! ### Half a message -/

/-- On a writer that does not fail the step fails, with a beginning of the bytes written
and not all of them. -/
def Cuts (s : Step World) (b : Bytes) : Prop := ∃ a c, Stops s a ∧ b = a ++ c ∧ c ≠ []

section
variable {s t : Step World} {a b : Bytes}

theorem Cuts.andThen (h : Cuts s a) (t : Step World) (b : Bytes) : Cuts (s.andThen t) (a ++ b) := by
  obtain ⟨x, c, hs, rfl, hc⟩ := h
  refine ⟨x, c ++ b, hs.andThen t, List.append_assoc .., ?_⟩
  exact fun hnil => hc (List.append_eq_nil_iff.mp hnil).1

theorem Writes.cuts (hs : Writes s a) (ht : Cuts t b) : Cuts (s.andThen t) (a ++ b) := by
  obtain ⟨x, c, hstops, rfl, hc⟩ := ht
  exact ⟨a ++ x, c, hs.stops hstops, (List.append_assoc ..).symm, hc⟩

theorem cuts_header {n : Int64} {len : Nat} (hn : n.toInt = len) (hs : Cuts s b) :
    Cuts ((write (formatInt n.toInt)).andThen ((write eol).andThen (Step.skip.andThen s))) (header len ++ b) := by
  rw [hn, header, List.append_assoc]
  exact (writes_write _).cuts ((writes_write eol).cuts (writes_skip.cuts hs))

/-- The last bytes of the body are not written. -/
theorem cuts_writeBulk (e : Encoder) {source : Source} {n : Int64} {m : Message} (h : source.EndsAtOnce)
    (hlen : n.toInt = source.bytes.length) (hr : m.reader = some (.own source)) (hn : m.runLength = n) :
    Cuts (writeBulk e m) (source.bytes ++ eol) := by
  obtain ⟨a, ⟨x, hclear⟩, hstops⟩ := bulkLoop_beyond e.chunkSize.toInt h.clear_lt
  obtain ⟨c, hbytes⟩ := h.bytes
  refine ⟨a, x ++ ([c] ++ eol), ?_, ?_, by simp⟩
  · unfold writeBulk
    rw [hr, hn, hlen]
    exact hstops
  · rw [hbytes, ← hclear, List.append_assoc, List.append_assoc]

end

section
variable (fl : Floats) (e : Encoder)

mutual

/-- Every reader of the message delivers its body, or `Encode` leaves the message half
written. -/
theorem encode_sends : ∀ (v : Value) (m : Message), BuiltWith Supplies v m →
    Built v m ∨ Cuts (encode fl e m) (wire v)
  | .text line, m, h => by
    rw [BuiltWith] at h
    exact .inl h
  | .null, m, h => by
    rw [BuiltWith] at h
    exact .inl h
  | .int i, m, h => by
    rw [BuiltWith] at h
    exact .inl h
  | .bool b, m, h => by
    rw [BuiltWith] at h
    exact .inl h
  | .bigNumber i, m, h => by
    rw [BuiltWith] at h
    exact .inl h
  | .bulk k body, m, h => by
    rw [BuiltWith] at h
    obtain ⟨source, n, ⟨hcalm | hends, rfl, hlen⟩, rfl⟩ := h
    · rw [Built, BuiltWith]
      exact .inl ⟨source, n, ⟨hcalm, rfl, hlen⟩, rfl⟩
    · rw [wire, payload]
      cases k with
      | string => exact .inr ((writes_write _).cuts (cuts_header hlen (cuts_writeBulk e hends hlen rfl rfl)))
      | error => exact .inr ((writes_write _).cuts (cuts_header hlen (cuts_writeBulk e hends hlen rfl rfl)))
  | .verbatim encoding body, m, h => by
    rw [BuiltWith] at h
    obtain ⟨source, n, ⟨hcalm | hends, rfl, hlen⟩, rfl⟩ := h
    · rw [Built, BuiltWith]
      exact .inl ⟨source, n, ⟨hcalm, rfl, hlen⟩, rfl⟩
    · rw [wire, payload, header, List.append_assoc, ← hlen]
      exact .inr ((writes_write _).cuts ((writes_write _).cuts ((writes_write eol).cuts
        (((writes_write _).andThen (writes_write eol)).cuts (cuts_writeBulk e hends hlen rfl rfl)))))
  | .seq k xs, m, h => by
    rw [BuiltWith] at h
    obtain ⟨ms, hms, hlen, rfl⟩ := h
    have hn : (Int64.ofNat ms.length).toInt = xs.length := by rw [hms.length, toInt_ofNat hlen]
    rcases encodeItems_sends xs ms hms with hbuilt | hcuts
    · rw [Built, BuiltWith]
      exact .inl ⟨ms, hbuilt, hlen, rfl⟩
    · rw [wire, payload]
      cases k with
      | array => exact .inr ((writes_write _).cuts (cuts_header hn hcuts))
      | set => exact .inr ((writes_write _).cuts (cuts_header hn hcuts))
      | push => exact .inr ((writes_write _).cuts (cuts_header hn hcuts))
  | .assoc k kvs, m, h => by
    rw [BuiltWith] at h
    obtain ⟨ms, hms, hlen, rfl⟩ := h
    have hn : (Int64.ofNat ms.length).toInt = kvs.length := by rw [hms.length, toInt_ofNat hlen]
    rcases encodePairs_sends kvs ms hms with hbuilt | hcuts
    · rw [Built, BuiltWith]
      exact .inl ⟨ms, hbuilt, hlen, rfl⟩
    · rw [wire, payload]
      cases k with
      | map => exact .inr ((writes_write _).cuts (cuts_header hn hcuts))
      | _ => exact .inr ((writes_write _).cuts (cuts_header hn hcuts))

theorem encodeItems_sends : ∀ (xs : List Value) (ms : List Message), BuiltSeqWith Supplies xs ms →
    BuiltSeq xs ms ∨ Cuts (encodeItems fl e (ms.map fun m => (m, none))) (wireSeq xs)
  | [], ms, h => by
    rw [BuiltSeqWith] at h
    rw [BuiltSeq, BuiltSeqWith]
    exact .inl h
  | x :: xs, ms, h => by
    rw [BuiltSeqWith] at h
    obtain ⟨m, rest, hm, hrest, rfl⟩ := h
    rw [wireSeq, List.map_cons, encodeItems]
    rcases encode_sends x m hm with hbuilt | hcuts
    · rcases encodeItems_sends xs rest hrest with hbuilts | hcuts
      · rw [BuiltSeq, BuiltSeqWith]
        exact .inl ⟨m, rest, hbuilt, hbuilts, rfl⟩
      · exact .inr ((encode_writes fl e x m hbuilt).cuts hcuts)
    · exact .inr (hcuts.andThen _ _)

theorem encodePairs_sends : ∀ (kvs : List (Value × Value)) (ms : List (Message × Message)),
    BuiltAssocWith Supplies kvs ms →
    BuiltAssoc kvs ms ∨ Cuts (encodePairs fl e (ms.map fun m => (m, none))) (wireAssoc kvs)
  | [], ms, h => by
    rw [BuiltAssocWith] at h
    rw [BuiltAssoc, BuiltAssocWith]
    exact .inl h
  | (k, v) :: kvs, ms, h => by
    rw [BuiltAssocWith] at h
    obtain ⟨mk, mv, rest, hk, hv, hrest, rfl⟩ := h
    rw [wireAssoc, List.map_cons, encodePairs]
    rcases encode_sends k mk hk with hbuilt | hcuts
    · rcases encode_sends v mv hv with hbuilt' | hcuts
      · rcases encodePairs_sends kvs rest hrest with hbuilts | hcuts
        · rw [BuiltAssoc, BuiltAssocWith]
          exact .inl ⟨mk, mv, rest, hbuilt, hbuilt', hbuilts, rfl⟩
        · exact .inr ((encode_writes fl e k mk hbuilt).cuts ((encode_writes fl e v mv hbuilt').cuts hcuts))
      · exact .inr ((encode_writes fl e k mk hbuilt).cuts (hcuts.andThen _ _))
    · exact .inr (hcuts.andThen _ _)

end

end

/-! ### The same value behind other readers -/

mutual

/-- Every value that has a message has one whose readers deliver their bodies. -/
theorem exists_built : ∀ (v : Value) (m : Message), BuiltWith Supplies v m → ∃ m', Built v m'
  | .text line, m, h => by
    rw [BuiltWith] at h
    exact ⟨m, h⟩
  | .null, m, h => by
    rw [BuiltWith] at h
    exact ⟨m, h⟩
  | .int i, m, h => by
    rw [BuiltWith] at h
    exact ⟨m, h⟩
  | .bool b, m, h => by
    rw [BuiltWith] at h
    exact ⟨m, h⟩
  | .bigNumber i, m, h => by
    rw [BuiltWith] at h
    exact ⟨m, h⟩
  | .bulk k body, m, h => by
    rw [BuiltWith] at h
    obtain ⟨_, n, hs, rfl⟩ := h
    refine ⟨k.message [⟨body, none⟩] n, ?_⟩
    rw [Built, BuiltWith]
    exact ⟨_, n, ⟨Source.calm_singleton body, Source.bytes_singleton .., hs.length⟩, rfl⟩
  | .verbatim encoding body, m, h => by
    rw [BuiltWith] at h
    obtain ⟨_, n, hs, rfl⟩ := h
    refine ⟨.ofVerbatimString [⟨body, none⟩] n encoding, ?_⟩
    rw [Built, BuiltWith]
    exact ⟨_, n, ⟨Source.calm_singleton body, Source.bytes_singleton .., hs.length⟩, rfl⟩
  | .seq k xs, m, h => by
    rw [BuiltWith] at h
    obtain ⟨ms, hms, hlen, rfl⟩ := h
    obtain ⟨ms', hms'⟩ := exists_builtSeq xs ms hms
    refine ⟨k.message ms', ?_⟩
    rw [Built, BuiltWith]
    exact ⟨ms', hms', hlen, rfl⟩
  | .assoc k kvs, m, h => by
    rw [BuiltWith] at h
    obtain ⟨ms, hms, hlen, rfl⟩ := h
    obtain ⟨ms', hms'⟩ := exists_builtAssoc kvs ms hms
    refine ⟨k.message ms', ?_⟩
    rw [Built, BuiltWith]
    exact ⟨ms', hms', hlen, rfl⟩

theorem exists_builtSeq : ∀ (xs : List Value) (ms : List Message), BuiltSeqWith Supplies xs ms →
    ∃ ms', BuiltSeq xs ms'
  | [], ms, h => by
    rw [BuiltSeqWith] at h
    exact ⟨ms, h⟩
  | x :: xs, ms, h => by
    rw [BuiltSeqWith] at h
    obtain ⟨m, rest, hm, hrest, rfl⟩ := h
    obtain ⟨m', hm'⟩ := exists_built x m hm
    obtain ⟨rest', hrest'⟩ := exists_builtSeq xs rest hrest
    refine ⟨m' :: rest', ?_⟩
    rw [BuiltSeq, BuiltSeqWith]
    exact ⟨m', rest', hm', hrest', rfl⟩

theorem exists_builtAssoc : ∀ (kvs : List (Value × Value)) (ms : List (Message × Message)),
    BuiltAssocWith Supplies kvs ms → ∃ ms', BuiltAssoc kvs ms'
  | [], ms, h => by
    rw [BuiltAssocWith] at h
    exact ⟨ms, h⟩
  | (k, v) :: kvs, ms, h => by
    rw [BuiltAssocWith] at h
    obtain ⟨mk, mv, rest, hk, hv, hrest, rfl⟩ := h
    obtain ⟨mk', hk'⟩ := exists_built k mk hk
    obtain ⟨mv', hv'⟩ := exists_built v mv hv
    obtain ⟨rest', hrest'⟩ := exists_builtAssoc kvs rest hrest
    refine ⟨(mk', mv') :: rest', ?_⟩
    rw [BuiltAssoc, BuiltAssocWith]
    exact ⟨mk', mv', rest', hk', hv', hrest', rfl⟩

end

/-! ### What is on the writer -/

/-- The bytes that `Encode` writes, whether or not it returns an error after them. -/
def output (fl : Floats) (e : Encoder) (m : Message) : Option Bytes :=
  (encode fl e m ⟨[], ⟨[], []⟩⟩).map fun x => x.2.2.out.out

theorem output_of_written {fl : Floats} {e : Encoder} {m : Message} {b : Bytes} (h : written fl e m = some b) :
    output fl e m = some b := by
  unfold written at h
  split at h
  · rename_i hrun
    cases h
    rw [output, hrun]
    rfl
  · cases h

theorem Stops.output {fl : Floats} {e : Encoder} {m : Message} {a : Bytes} (h : Stops (encode fl e m) a) :
    output fl e m = some a := by
  obtain ⟨n, err, hrun⟩ := h ⟨[], ⟨[], []⟩⟩ rfl
  rw [Protocol.output, hrun]
  rfl

/-- The bytes of the message, with anything after them, are those of no other message
whose readers deliver their bodies, and tell where the message ends. -/
def ToldApart (fl : Floats) (e e' : Encoder) (v : Value) (m : Message) : Prop :=
  ∃ b, output fl e m = some b ∧ ∀ v' m', Built v' m' →
    ∃ b', output fl e' m' = some b' ∧ ∀ r r', b ++ r = b' ++ r' → v = v' ∧ r = r'

/-- **`Encode` is uniquely decodable exactly where no reader returns its last bytes with
`io.EOF`.** -/
theorem encode_unique_iff (fl : Floats) (e e' : Encoder) {v : Value} {m : Message} (h : BuiltWith Supplies v m) :
    ToldApart fl e e' v m ↔ Built v m := by
  constructor
  · rintro ⟨b, hb, hapart⟩
    rcases encode_sends fl e v m h with hbuilt | hcuts
    · exact hbuilt
    · -- The rest of the bytes makes it the whole message of the same value.
      obtain ⟨a, c, hstops, hwire, hc⟩ := hcuts
      obtain ⟨m', hm'⟩ := exists_built v m h
      obtain ⟨b', hb', hunique⟩ := hapart v m' hm'
      rw [output_of_written (written_built fl e' hm')] at hb'
      rw [hstops.output] at hb
      cases hb'
      cases hb
      exact absurd (hunique c [] (by rw [hwire, List.append_nil])).2 hc
  · intro hbuilt
    refine ⟨wire v, output_of_written (written_built fl e hbuilt), fun v' m' hm' => ?_⟩
    obtain ⟨b, b', hb, hb', hunique⟩ := encode_unique fl e e' hbuilt hm'
    rw [written_built fl e hbuilt] at hb
    cases hb
    exact ⟨b', output_of_written hb', hunique⟩

/-- A bulk string whose body is the end of one message and the head of another. -/
def forged : Value := .bulk .string (ascii "\r\n$1")

/-- It is told apart from everything, an array that holds it twice included. -/
theorem encode_unique_forged :
    ∃ m, BuiltWith Supplies forged m ∧ ToldApart noFloats {} {} forged m := by
  have hplain : Source.Calm [⟨ascii "\r\n$1", none⟩] := Source.calm_singleton _
  have hsupplied : BuiltWith Supplies forged (.ofBulkString [⟨ascii "\r\n$1", none⟩] 4) := by
    rw [forged, BuiltWith]
    exact ⟨_, 4, ⟨.inl hplain, by decide, by decide⟩, rfl⟩
  have hbuilt : Built forged (.ofBulkString [⟨ascii "\r\n$1", none⟩] 4) := by
    rw [forged, Built, BuiltWith]
    exact ⟨_, 4, ⟨hplain, by decide, by decide⟩, rfl⟩
  exact ⟨_, hsupplied, (encode_unique_iff noFloats {} {} hsupplied).mpr hbuilt⟩

/-- A string that comes in one piece together with the end of the file. -/
def atOnce (body : Bytes) : Message := .ofBulkString [⟨body, some .eof⟩] 3

theorem output_atOnce {body : Bytes} (hlen : body.length = 3) :
    output noFloats {} (atOnce body) = some (ascii "$3\r\n") := by
  have hpos : 0 < (3 : Int64).toInt := by decide
  have hread : Source.read (emptyBuffer 0 3) [⟨body, some .eof⟩] = (body, some .eof, []) := by
    rw [Source.read, if_pos (by rw [hlen]; decide)]
  have hbulk : Stops (writeBulk {} (atOnce body)) [] := by
    intro w _
    rw [World.emit_nil]
    exact ⟨0, .eof, bulkLoop_error hpos hread⟩
  have hstops : Stops (encode noFloats {} (atOnce body)) _ :=
    (writes_write _).stops ((writes_write _).stops ((writes_write eol).stops (writes_skip.stops hbulk)))
  rw [hstops.output]
  rfl

/-- **Two strings are not told apart**: of `abc` and of `abd`, each in one piece with the
end of the file, only the length is written. -/
theorem not_encode_unique :
    ¬∀ v m v' m', BuiltWith Supplies v m → BuiltWith Supplies v' m' →
      ∀ b b', output noFloats {} m = some b → output noFloats {} m' = some b' →
      ∀ r r', b ++ r = b' ++ r' → v = v' ∧ r = r' := by
  intro h
  have hsupplies (body : Bytes) (hlen : body.length = 3) : BuiltWith Supplies (.bulk .string body) (atOnce body) := by
    rw [BuiltWith]
    refine ⟨_, 3, ⟨.inr ⟨[], body, rfl, ?_, ?_⟩, Source.bytes_singleton .., ?_⟩, rfl⟩
    · exact fun _ hp => absurd hp List.not_mem_nil
    · exact List.length_pos_iff.mp (by omega)
    · rw [hlen]
      rfl
  have habc : (ascii "abc").length = 3 := by decide
  have habd : (ascii "abd").length = 3 := by decide
  have hsame := h _ _ _ _ (hsupplies _ habc) (hsupplies _ habd) _ _ (output_atOnce habc) (output_atOnce habd) [] [] rfl
  cases hsame.1

end AnarchoRedis.Protocol
