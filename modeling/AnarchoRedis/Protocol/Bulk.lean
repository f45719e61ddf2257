import AnarchoRedis.Protocol.Wire

/-! Bodies in pieces.

However a reader cuts a body up, and whatever the size of the chunks, `writeBulk`
writes the same: the first bytes of the body, as many as the run length says, and a
terminator; and it leaves the reader at the next byte (`writeBulk_pieces`). A body
that is too short is written whole, without a terminator, and is an error. -/
namespace AnarchoRedis.Protocol
open Base

section
variable {chunkSize : Int} {source rest : Source} {b : Bytes} {w : World} {n : Nat}

theorem bulkReader_round {left : Int} (hpos : 0 < left)
    (hread : source.read (emptyBuffer chunkSize left) = (b, none, rest)) (hw : w.out.faults = []) :
    bulkReader chunkSize left (.own source) w = bulkReader chunkSize (left - b.length) (.own rest) (w.emit b) := by
  rw [bulkReader_read hpos (read_own hread w.conn), w.write_plain hw]
  rfl

/-- Nothing beyond the bytes asked for is taken from the reader. -/
theorem bulkReader_full (chunkSize : Int) (h : source.Plain) (hn : n ≤ source.bytes.length)
    (hw : w.out.faults = []) :
    ∃ rest, bulkReader chunkSize n (.own source) w = .own rest ∧ rest.bytes = source.bytes.drop n ∧ rest.Plain := by
  induction n using Nat.strong_induction_on generalizing source w with
  | _ n ih =>
    by_cases hzero : n = 0
    · subst hzero
      exact ⟨source, by rw [bulkReader, dif_neg (by decide)], rfl, h⟩
    · have hpos : 0 < (n : Int) := by omega
      have hne : source.bytes ≠ [] := List.length_pos_iff.mp (by omega)
      obtain ⟨b, rest, hread, hb, hlen, hbytes, hplain⟩ := h.read (emptyBuffer_pos chunkSize hpos) hne
      have hpos' := List.length_pos_iff.mpr hb
      have hfits : b.length ≤ n := hlen.trans (emptyBuffer_le chunkSize n)
      have hcount := congrArg List.length hbytes
      rw [List.length_append] at hcount
      have hleft : (n : Int) - b.length = (n - b.length : Nat) := by omega
      obtain ⟨left, hreader, hdrop, hplain'⟩ := ih (n - b.length) (by omega) (w := w.emit b) hplain (by omega) hw
      refine ⟨left, ?_, ?_, hplain'⟩
      · rw [bulkReader_round hpos hread hw, hleft, hreader]
      · rw [hdrop, hbytes, List.drop_append, List.drop_of_length_le hfits, List.nil_append]

/-- A reader that has too little gives all of it, and then the end of the file. -/
theorem bulkLoop_short (chunkSize : Int) (h : source.Plain) (hn : source.bytes.length < n)
    (hw : w.out.faults = []) :
    bulkLoop chunkSize n (.own source) w = some (source.bytes.length, some .eof, w.emit source.bytes) := by
  induction n using Nat.strong_induction_on generalizing source w with
  | _ n ih =>
    have hpos : 0 < (n : Int) := by omega
    by_cases hnil : source.bytes = []
    · rw [bulkLoop_error hpos (by rw [h.eq_nil hnil, Source.read]), hnil, World.emit_nil, List.length_nil]
    · obtain ⟨b, rest, hread, hb, hlen, hbytes, hplain⟩ := h.read (emptyBuffer_pos chunkSize hpos) hnil
      have hpos' := List.length_pos_iff.mpr hb
      have hcount := congrArg List.length hbytes
      rw [List.length_append] at hcount
      have hleft : (n : Int) - b.length = (n - b.length : Nat) := by omega
      have hrest := ih (n - b.length) (by omega) (w := w.emit b) hplain (by omega) hw
      rw [bulkLoop_round hpos hread hw, hleft, hrest, Option.map_some, World.emit_emit, hcount, hbytes]

end

/-- The reader of a message after `writeBulk`. -/
def writeBulkReader (e : Encoder) (m : Message) (w : World) : Option Reader :=
  m.reader.map fun r => bulkReader e.chunkSize.toInt m.runLength.toInt r w

/-- **`writeBulk` does not depend on how the body is cut up**, by the reader or by the
size of the chunks. -/
theorem writeBulk_pieces (e : Encoder) {m : Message} {source : Source} {n : Nat} {w : World}
    (hr : m.reader = some (.own source)) (hl : m.runLength.toInt = n) (h : source.Plain)
    (hw : w.out.faults = []) :
    (n ≤ source.bytes.length →
      writeBulk e m w = some (n + 2, none, w.emit (source.bytes.take n ++ eol)) ∧
      ∃ rest, writeBulkReader e m w = some (.own rest) ∧ rest.bytes = source.bytes.drop n) ∧
    (source.bytes.length < n →
      ∃ err, writeBulk e m w = some (source.bytes.length, some err, w.emit source.bytes)) := by
  have hwrite : writeBulk e m = bulkLoop e.chunkSize.toInt n (.own source) := by
    unfold writeBulk
    rw [hr, hl]
  have hreader : writeBulkReader e m w = some (bulkReader e.chunkSize.toInt n (.own source) w) := by
    rw [writeBulkReader, hr, hl]
    rfl
  constructor
  · intro hlen
    obtain ⟨rest, hrest, hdrop, -⟩ := bulkReader_full e.chunkSize.toInt h hlen hw
    refine ⟨?_, rest, ?_, hdrop⟩
    · rw [hwrite, bulkLoop_full e.chunkSize.toInt h.calm hlen hw]
    · rw [hreader, hrest]
  · intro hlen
    exact ⟨.eof, by rw [hwrite, bulkLoop_short e.chunkSize.toInt h hlen hw]⟩

/-- Four bytes out of six, which come two and four at a time, in chunks of three. -/
theorem writeBulk_pieces_four :
    writeBulk ⟨3⟩ (.ofBulkString [⟨ascii "ab", none⟩, ⟨ascii "cdef", none⟩] 4) ⟨[], ⟨[], []⟩⟩ =
      some (6, none, ⟨[], ⟨ascii "abcd\r\n", []⟩⟩) := by
  have hplain : Source.Plain [⟨ascii "ab", none⟩, ⟨ascii "cdef", none⟩] := by
    unfold Source.Plain
    decide
  exact ((writeBulk_pieces ⟨3⟩ (n := 4) rfl rfl hplain rfl).1 (by decide)).1

end AnarchoRedis.Protocol
