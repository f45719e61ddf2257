import AnarchoRedis.Protocol.Cmd
import AnarchoRedis.Protocol.Sound

/-! How a reader hands over what it has.

A line is read byte by byte, up to a terminator that has something before it: an empty
line is not found, and every other is read exactly (`oneLine_iff`). What comes together
with an error is dropped, both here and where a body is written. So a reader that
reports the end of the file together with its last bytes is taken for one that has a
byte less, which matters where that byte ends a line, or a body (`delivery_iff`). -/
namespace AnarchoRedis.Protocol
open Base

/-! ### One line -/

/-- `simpleUnmarshal` returns the line `s`, counts it with its terminator, and leaves
`t`. -/
structure OneLine (src : Source) (s t : Bytes) : Prop where
  str : (simpleUnmarshal src).str = s
  size : (simpleUnmarshal src).size = s.length + 2
  err : (simpleUnmarshal src).err = none
  rest : (simpleUnmarshal src).rest.bytes = t

/-- The loop ends with a line, or with the error of the reader. -/
theorem unmarshalLoop_failed {buf : Bytes} {r : Source} {err : Err} (h : (unmarshalLoop buf r).err = some err) :
    (unmarshalLoop buf r).str = [] ∧ err = r.failure := by
  fun_induction unmarshalLoop buf r with
  | case1 buf r b err' r' hr =>
    cases h
    exact ⟨rfl, (Source.failure_readError hr).symm⟩
  | case2 buf r b r' hr buf' hc => cases h
  | case3 buf r b r' hr buf' hc ih =>
    rw [← Source.failure_read hr]
    exact ih h

/-- Where no terminator comes it ends with the error. -/
theorem unmarshalLoop_noEol {buf : Bytes} {r : Source} (h : NoEol (buf ++ r.good).tail) :
    (unmarshalLoop buf r).err ≠ none := by
  fun_induction unmarshalLoop buf r with
  | case1 buf r b err r' hr => exact Option.some_ne_none err
  | case2 buf r b r' hr buf' hc =>
    rw [Source.good_read hr, ← List.append_assoc] at h
    exact absurd hc (not_stop h)
  | case3 buf r b r' hr buf' hc ih =>
    rw [Source.good_read hr, ← List.append_assoc] at h
    exact ih h

/-- What `simpleUnmarshal` is to do with a reader: read a line exactly, or return the
error where there is none. -/
structure ReadsOneLine (src : Source) : Prop where
  line : src.Plain → ∀ s t, NoEol s → src.bytes = s ++ (eol ++ t) → OneLine src s t
  failure : NoEol src.good → (simpleUnmarshal src).str = [] ∧ (simpleUnmarshal src).err = some src.failure

section
variable {src : Source} {s t : Bytes}

theorem oneLine_of_ne_nil (hp : src.Plain) (hs : NoEol s) (hne : s ≠ []) (hb : src.bytes = s ++ (eol ++ t)) :
    OneLine src s t := by
  obtain ⟨rest, hread, hrest, -⟩ := unmarshal_line (readsLine_of_noEol hs hne) hp hb
  exact ⟨by rw [hread], by rw [hread], by rw [hread], by rw [hread, hrest]⟩

/-- An empty line would leave more than is left of any line. -/
theorem not_oneLine_nil (hb : src.bytes = eol ++ t) : ¬OneLine src [] t := by
  intro h
  have htakes := unmarshal_takes h.err
  rw [h.rest, hb] at htakes
  simp only [List.length_append, eol_length] at htakes
  omega

theorem unmarshal_noEol (h : NoEol src.good) :
    (simpleUnmarshal src).str = [] ∧ (simpleUnmarshal src).err = some src.failure := by
  have hfails : (unmarshalLoop [] src).err ≠ none := unmarshalLoop_noEol (noEol_tail h)
  obtain ⟨err, herr⟩ := Option.ne_none_iff_exists'.mp hfails
  obtain ⟨hstr, rfl⟩ := unmarshalLoop_failed herr
  exact ⟨hstr, herr⟩

end

/-- **A line is read exactly unless it is empty.** -/
theorem oneLine_iff (src : Source) : ReadsOneLine src ↔ ¬(src.Plain ∧ eol <+: src.bytes) := by
  constructor
  · rintro h ⟨hp, t, ht⟩
    exact not_oneLine_nil ht.symm (h.line hp [] t trivial ht.symm)
  · intro hnot
    refine ⟨fun hp s t hs hb => oneLine_of_ne_nil hp hs (fun hnil => hnot ⟨hp, t, ?_⟩) hb, unmarshal_noEol⟩
    rw [hb, hnil, List.nil_append]

/-- **An empty line is not found.** -/
theorem not_oneLine : ¬∀ src, ReadsOneLine src := by
  intro hall
  have hplain : Source.Plain [⟨[13], none⟩, ⟨[10], none⟩] := by
    unfold Source.Plain
    decide
  exact not_oneLine_nil rfl ((hall _).line hplain [] [] trivial rfl)

/-! ### Lines and the end of the file -/

/-- One byte at a time a reader gives the next byte, or nothing. -/
theorem read_one_cases {s s' : Source} {b : Bytes} (h : s.read 1 = (b, none, s')) :
    b = [] ∧ s.clear = s'.clear ∨ ∃ c, b = [c] ∧ s.clear = c :: s'.clear := by
  have hclear := Source.clear_read h
  have hlen := Source.read_le h
  match b with
  | [] => exact .inl ⟨rfl, hclear⟩
  | [c] => exact .inr ⟨c, rfl, hclear⟩
  | _ :: _ :: _ =>
    simp only [List.length_cons] at hlen
    omega

/-- The loop sees of a reader what comes without an error. -/
theorem unmarshalLoop_clear {buf : Bytes} {s u : Source}
    (hbuf : ¬(buf.length > eol.length ∧ buf.drop (buf.length - eol.length) = eol)) (hs : s.failure = .eof)
    (hu : u.Plain) (hb : u.bytes = s.clear) :
    (unmarshalLoop buf s).str = (unmarshalLoop buf u).str ∧ (unmarshalLoop buf s).err = (unmarshalLoop buf u).err := by
  fun_induction unmarshalLoop buf s generalizing u with
  | case1 buf s b err s' hread =>
    have hnil : u.bytes = [] := by
      have hlen := Source.clear_readError Nat.one_pos hread
      rw [hb, ← List.length_eq_zero_iff]
      omega
    rw [hu.eq_nil hnil, unmarshalLoop_readError (r := []) rfl, ← Source.failure_readError hread, hs]
    exact ⟨rfl, rfl⟩
  | case2 buf s b s' hread buf' =>
    rename_i hc
    subst buf'
    rcases read_one_cases hread with ⟨rfl, -⟩ | ⟨c, rfl, hclear⟩
    · rw [List.append_nil] at hc
      exact absurd hc hbuf
    · obtain ⟨u', hread', -, -⟩ := hu.read_one (hb.trans hclear)
      rw [unmarshalLoop_read hread', if_pos hc]
      exact ⟨rfl, rfl⟩
  | case3 buf s b s' hread buf' hc =>
    rename_i ih
    subst buf'
    have hs' := (Source.failure_read hread).trans hs
    rcases read_one_cases hread with ⟨rfl, hclear⟩ | ⟨c, rfl, hclear⟩
    · rw [List.append_nil] at ih ⊢
      exact ih hbuf hs' hu (hb.trans hclear)
    · obtain ⟨u', hread', hb', hu'⟩ := hu.read_one (hb.trans hclear)
      rw [unmarshalLoop_read hread', if_neg hc]
      exact ih hc hs' hu' hb'

theorem unmarshal_clear {s u : Source} (hs : s.failure = .eof) (hu : u.Plain) (hb : u.bytes = s.clear) :
    (simpleUnmarshal s).str = (simpleUnmarshal u).str ∧ (simpleUnmarshal s).err = (simpleUnmarshal u).err :=
  unmarshalLoop_clear (by decide) hs hu hb

/-- The bytes are one line, as `simpleUnmarshal` takes it, and its terminator. -/
def EndsLine (d : Bytes) : Prop := ∃ line, ReadsLine line ∧ d = line ++ eol

/-- What comes behind a line does not matter to it. -/
theorem unmarshal_extend {u t : Source} {x : Bytes} (hu : u.Plain) (ht : t.Plain) (hb : t.bytes = u.bytes ++ x)
    (h : (simpleUnmarshal u).err = none) :
    (simpleUnmarshal t).str = (simpleUnmarshal u).str ∧ (simpleUnmarshal t).err = none ∧
      (simpleUnmarshal t).rest.bytes = (simpleUnmarshal u).rest.bytes ++ x := by
  obtain ⟨hline, hbytes, -⟩ := unmarshal_sound hu h
  have hbytes' : t.bytes = (simpleUnmarshal u).str ++ (eol ++ ((simpleUnmarshal u).rest.bytes ++ x)) := by
    rw [hb, hbytes, List.append_assoc, List.append_assoc]
  obtain ⟨rest, hread, hrest, -⟩ := unmarshal_line hline ht hbytes'
  exact ⟨by rw [hread], by rw [hread], by rw [hread, hrest]⟩

/-- One byte less is the same line, or none on both sides, unless the bytes end with the
line. -/
theorem unmarshal_init {t u : Source} {c : UInt8} (ht : t.Plain) (hu : u.Plain) (hb : t.bytes = u.bytes ++ [c]) :
    (simpleUnmarshal u).str = (simpleUnmarshal t).str ∧ (simpleUnmarshal u).err = (simpleUnmarshal t).err ↔
      ¬EndsLine t.bytes := by
  constructor
  · rintro ⟨-, herr⟩ ⟨line, hline, hend⟩
    obtain ⟨rest, hread, hrest, -⟩ := unmarshal_line (t := []) hline ht (by rw [hend, List.append_nil])
    rw [hread] at herr
    -- The line that is read of `u` is read of `t` too, with the last byte left over.
    obtain ⟨-, -, hleft⟩ := unmarshal_extend hu ht hb herr
    rw [hread] at hleft
    exact absurd (hrest.symm.trans hleft) (List.concat_ne_nil c _).symm
  · intro hend
    rcases herr : (simpleUnmarshal u).err with _ | err
    · obtain ⟨hstr, herr', -⟩ := unmarshal_extend hu ht hb herr
      exact ⟨hstr.symm, herr'.symm⟩
    · rcases herr' : (simpleUnmarshal t).err with _ | err'
      · -- Then the line ends before the last byte, and is read of `u` too.
        obtain ⟨hline, hbytes, -⟩ := unmarshal_sound ht herr'
        rcases List.eq_nil_or_concat (simpleUnmarshal t).rest.bytes with hnil | ⟨rest, x, hrest⟩
        · rw [hnil, List.append_nil] at hbytes
          exact absurd ⟨_, hline, hbytes⟩ hend
        · have hinit : u.bytes = (simpleUnmarshal t).str ++ (eol ++ rest) := by
            rw [hb, hrest, List.concat_eq_append, ← List.append_assoc, ← List.append_assoc] at hbytes
            rw [List.append_inj_left' hbytes rfl, List.append_assoc]
          obtain ⟨rest', hread, -, -⟩ := unmarshal_line hline hu hinit
          rw [hread] at herr
          cases herr
      · obtain ⟨hstr, rfl⟩ := unmarshalLoop_failed herr
        obtain ⟨hstr', rfl⟩ := unmarshalLoop_failed herr'
        rw [hu.calm.failure, ht.calm.failure]
        exact ⟨hstr.trans hstr'.symm, rfl⟩

/-! ### Two ways to end -/

/-- The same line and error, and the same bytes written with the same result. -/
structure SameDelivery (e : Encoder) (m : Message) (w : World) (s t : Source) : Prop where
  str : (simpleUnmarshal s).str = (simpleUnmarshal t).str
  err : (simpleUnmarshal s).err = (simpleUnmarshal t).err
  bulk : writeBulk e {m with reader := some (.own s)} w = writeBulk e {m with reader := some (.own t)} w

section
variable {s t : Source} (hs : s.EndsAtOnce) (ht : t.Calm) (hb : s.bytes = t.bytes)
include hs ht hb

theorem unmarshal_same_iff :
    (simpleUnmarshal s).str = (simpleUnmarshal t).str ∧ (simpleUnmarshal s).err = (simpleUnmarshal t).err ↔
      ¬EndsLine t.bytes := by
  obtain ⟨c, hlast⟩ := hs.bytes
  obtain ⟨hu, hub⟩ := plain_newBufferString s.clear
  obtain ⟨hv, hvb⟩ := plain_newBufferString t.bytes
  obtain ⟨hstr, herr⟩ := unmarshal_clear hs.failure hu hub
  obtain ⟨hstr', herr'⟩ := unmarshal_clear ht.failure hv (hvb.trans ht.clear.symm)
  rw [hstr, herr, hstr', herr', unmarshal_init hv hu (by rw [hvb, hub, ← hb, hlast]), hvb]

theorem writeBulk_same_iff (e : Encoder) {m : Message} (hl : m.runLength.toInt ≤ t.bytes.length) {w : World}
    (hw : w.out.faults = []) :
    writeBulk e {m with reader := some (.own s)} w = writeBulk e {m with reader := some (.own t)} w ↔
      m.runLength.toInt ≠ t.bytes.length := by
  obtain ⟨c, hlast⟩ := hs.bytes
  have hlen := congrArg List.length hlast
  rw [hb, List.length_append, List.length_singleton] at hlen
  simp only [writeBulk]
  by_cases hneg : m.runLength.toInt < 0
  · -- Nothing is read.
    refine iff_of_true ?_ (by omega)
    rw [bulkLoop, bulkLoop, dif_neg (by omega), dif_neg (by omega)]
  · obtain ⟨n, hn⟩ := Int.eq_ofNat_of_zero_le (Int.not_lt.mp hneg)
    rw [hn] at hl ⊢
    have hclear : n ≤ t.clear.length := by rw [ht.clear]; omega
    rw [bulkLoop_clear e.chunkSize.toInt hclear hw]
    constructor
    · intro heq hall
      have hless : s.clear.length < n := by omega
      obtain ⟨a, -, hstops⟩ := bulkLoop_beyond e.chunkSize.toInt hless
      obtain ⟨k, err, hfails⟩ := hstops w hw
      rw [hfails] at heq
      cases heq
    · intro hne
      rw [bulkLoop_clear e.chunkSize.toInt (by omega) hw, ht.clear, ← hb, hlast, List.take_append_of_le_length (by omega)]

/-- **How the end of the file is reported does not matter exactly when the data do not
end with the line that is read, nor with the body.** -/
theorem delivery_iff (e : Encoder) {m : Message} (hl : m.runLength.toInt ≤ t.bytes.length) {w : World}
    (hw : w.out.faults = []) :
    SameDelivery e m w s t ↔ ¬EndsLine t.bytes ∧ m.runLength.toInt ≠ t.bytes.length := by
  rw [← unmarshal_same_iff hs ht hb, ← writeBulk_same_iff hs ht hb e hl hw]
  exact ⟨fun h => ⟨⟨h.str, h.err⟩, h.bulk⟩, fun h => ⟨h.1.1, h.1.2, h.2⟩⟩

end

section
variable {b : Bytes}

theorem endsAtOnce_singleton (h : b ≠ []) : Source.EndsAtOnce [⟨b, some .eof⟩] :=
  ⟨[], b, rfl, fun _ hp => absurd hp List.not_mem_nil, h⟩

theorem calm_singleton : Source.Calm [⟨b, none⟩] := by
  intro p hp
  rw [List.mem_singleton.mp hp]

end

/-- A byte after the line, and a body of two. -/
theorem delivery_iff_after : SameDelivery {} {runLength := 2} ⟨[], ⟨[], []⟩⟩
    [⟨ascii "ab\r\nc", some .eof⟩] [⟨ascii "ab\r\nc", none⟩] := by
  refine (delivery_iff (endsAtOnce_singleton (by decide)) calm_singleton rfl {} (by decide) rfl).mpr ⟨?_, by decide⟩
  rintro ⟨line, -, hline⟩
  have hlast := congrArg List.getLast? hline
  rw [List.getLast?_append_of_ne_nil line (by decide)] at hlast
  exact absurd hlast (by decide)

/-- **A line is lost with the end of the file.** -/
theorem not_delivery : ¬∀ (e : Encoder) (m : Message) (w : World) (s t : Source), s.EndsAtOnce → t.Calm →
    s.bytes = t.bytes → m.runLength.toInt ≤ t.bytes.length → w.out.faults = [] → SameDelivery e m w s t := by
  intro hall
  have hsame := hall {} {} ⟨[], ⟨[], []⟩⟩ [⟨ascii "OK\r\n", some .eof⟩] [⟨ascii "OK\r\n", none⟩]
    (endsAtOnce_singleton (by decide)) calm_singleton rfl (by decide) rfl
  refine (unmarshal_same_iff (endsAtOnce_singleton (by decide)) calm_singleton rfl).mp ⟨hsame.str, hsame.err⟩ ?_
  exact ⟨ascii "OK", readsLine_of_noEol (by decide) (by decide), rfl⟩

end AnarchoRedis.Protocol
