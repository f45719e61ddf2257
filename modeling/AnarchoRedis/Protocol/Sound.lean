import AnarchoRedis.Protocol.Relay

/-! When `Decode` accepts what it should not.

`Decode` returns the zero message whatever it reads, so it is sound only where it
returns an error. It goes on from header to header (`Skims`), past bytes that are no
kind and past every message it has built, until one cannot be read; that is an error
except for a big number, where the error returned is the one of reading the line,
which is none (`Trips`). -/
namespace AnarchoRedis.Protocol
open Base

/-! ### One line -/

/-- Where the loop of `simpleUnmarshal` stops it has read a line and its terminator. -/
theorem line_of_stop {buf : Bytes} {c : UInt8} (hbuf : NoEol buf.tail) (hlen : (buf ++ [c]).length > eol.length)
    (hdrop : (buf ++ [c]).drop ((buf ++ [c]).length - eol.length) = eol) :
    ReadsLine ((buf ++ [c]).take ((buf ++ [c]).length - eol.length)) ∧
    (buf ++ [c]).take ((buf ++ [c]).length - eol.length) ++ eol = buf ++ [c] := by
  have hcut := List.take_append_drop ((buf ++ [c]).length - eol.length) (buf ++ [c])
  rw [hdrop] at hcut
  refine ⟨?_, hcut⟩
  generalize (buf ++ [c]).take ((buf ++ [c]).length - eol.length) = line at hcut ⊢
  -- All but the last byte was read before.
  have hinit : line ++ [13] = buf := by
    have hconcat : line ++ [13] ++ [10] = buf ++ [c] := by
      rw [← hcut, List.append_assoc]
      rfl
    exact List.append_inj_left' hconcat rfl
  have hne : line ≠ [] := by
    rintro rfl
    rw [← hcut] at hlen
    exact absurd hlen (by decide)
  rw [← hinit, List.tail_append_of_ne_nil hne] at hbuf
  exact ⟨hne, hbuf.left⟩

theorem noEol_of_go {buf : Bytes} {c : UInt8} (hbuf : NoEol buf.tail)
    (hgo : ¬((buf ++ [c]).length > eol.length ∧ (buf ++ [c]).drop ((buf ++ [c]).length - eol.length) = eol)) :
    NoEol (buf ++ [c]).tail := by
  cases buf with
  | nil => trivial
  | cons a u =>
    refine NoEol.concat hbuf fun v heq => hgo ⟨?_, ?_⟩
    · have hlen := congrArg List.length heq
      simp only [List.length_append, List.length_cons, eol_length] at hlen ⊢
      omega
    · have hall : a :: u ++ [c] = a :: v ++ eol := congrArg (a :: ·) heq
      rw [hall, List.length_append, Nat.add_sub_cancel, List.drop_left]

/-- What the loop of `simpleUnmarshal` has read without an error is a line and its terminator. -/
theorem unmarshalLoop_sound {buf : Bytes} {r : Source} (hp : r.Plain) (hbuf : NoEol buf.tail)
    (h : (unmarshalLoop buf r).err = none) :
    ReadsLine (unmarshalLoop buf r).str ∧
    buf ++ r.bytes = (unmarshalLoop buf r).str ++ (eol ++ (unmarshalLoop buf r).rest.bytes) ∧
    (unmarshalLoop buf r).rest.Plain := by
  induction hb : r.bytes generalizing buf r with
  | nil =>
    rw [hp.eq_nil hb, unmarshalLoop] at h
    cases h
  | cons c t ih =>
    obtain ⟨r', hread, hb', hp'⟩ := hp.read_one hb
    have hsplit : buf ++ c :: t = (buf ++ [c]) ++ t := by rw [List.append_assoc, List.singleton_append]
    rw [unmarshalLoop_read hread] at h ⊢
    split
    · rename_i hstop
      obtain ⟨hline, hcut⟩ := line_of_stop hbuf hstop.1 hstop.2
      refine ⟨hline, ?_, hp'⟩
      rw [← List.append_assoc, hcut, hsplit, hb']
    · rename_i hgo
      rw [if_neg hgo] at h
      rw [hsplit]
      exact ih hp' (noEol_of_go hbuf hgo) h hb'

theorem unmarshal_sound {r : Source} (hp : r.Plain) (h : (simpleUnmarshal r).err = none) :
    ReadsLine (simpleUnmarshal r).str ∧
    r.bytes = (simpleUnmarshal r).str ++ (eol ++ (simpleUnmarshal r).rest.bytes) ∧ (simpleUnmarshal r).rest.Plain :=
  unmarshalLoop_sound hp trivial h

/-! ### One pass -/

section
variable {fl : Floats}

/-- What a pass that builds a message reads: the stream before and after it. -/
inductive Skims (fl : Floats) : Bytes → Bytes → Prop where
  | unknown {b : UInt8} {s : Bytes} : Kind.ofByte b = none → Skims fl (b :: s) s
  | simple {k : Kind} {line s : Bytes} {m : Message} : k.category = .simple → ReadsLine line →
      simpleMessage fl k line = .ok m → Skims fl (k.byte :: (line ++ (eol ++ s))) s
  | aggregate {k : Kind} {line s : Bytes} {n : Int64} : k.category = .aggregate → k ≠ .verbatimString →
      ReadsLine line → parseInt line = .ok n → Skims fl (k.byte :: (line ++ (eol ++ s))) s
  | verbatim {line enc s : Bytes} {n : Int64} : ReadsLine line → parseInt line = .ok n → ReadsLine enc →
      enc.length = 3 → Skims fl (Kind.verbatimString.byte :: (line ++ (eol ++ (enc ++ (eol ++ s))))) s

/-- Past any number of headers the stream comes to a big number that cannot be read. -/
inductive Trips (fl : Floats) : Bytes → Prop where
  | number {line s : Bytes} : ReadsLine line → setString line = none →
      Trips fl (Kind.bigNumber.byte :: (line ++ (eol ++ s)))
  | skim {s t : Bytes} : Skims fl s t → Trips fl t → Trips fl s

theorem simpleMessage_error_none {k : Kind} {str : Bytes} (h : simpleMessage fl k str = .error none) :
    k = .bigNumber ∧ setString str = none := by
  cases k with
  | bigNumber =>
    simp only [simpleMessage] at h
    split at h
    · exact ⟨rfl, by assumption⟩
    · cases h
  | int | bool | double =>
    simp only [simpleMessage] at h
    split at h <;> cases h
  | _ => cases h

/-- What is known of the stream when a pass is over. -/
def Passed (fl : Floats) (s : Bytes) : Pass → Prop
  | .built _ rest => Skims fl s rest.bytes ∧ rest.Plain
  | .stop none _ => Trips fl s
  | .stop (some _) _ => True

theorem simplePass_passed {k : Kind} {r : Source} (hp : r.Plain) (hk : k.category = .simple) :
    Passed fl (k.byte :: r.bytes) (simplePass fl k (simpleUnmarshal r)) := by
  unfold simplePass
  split
  · trivial
  · rename_i herr
    obtain ⟨hline, hbytes, hplain⟩ := unmarshal_sound hp herr
    rw [hbytes]
    split
    · rename_i err hm
      cases err with
      | some err => trivial
      | none =>
        obtain ⟨rfl, hset⟩ := simpleMessage_error_none hm
        exact .number hline hset
    · rename_i m hm
      exact ⟨.simple hk hline hm, hplain⟩

theorem aggregatePass_passed {k : Kind} {r : Source} (hp : r.Plain) (hk : k.category = .aggregate) :
    Passed fl (k.byte :: r.bytes) (aggregatePass k (simpleUnmarshal r)) := by
  unfold aggregatePass
  split
  · trivial
  · rename_i herr
    obtain ⟨hline, hbytes, hplain⟩ := unmarshal_sound hp herr
    rw [hbytes]
    split
    · trivial
    · rename_i n hn
      dsimp only
      split
      · rename_i hverbatim
        subst hverbatim
        split
        · trivial
        · rename_i a b c henc hstr
          obtain ⟨henc', hbytes', hplain'⟩ := unmarshal_sound hplain henc
          rw [hstr] at henc' hbytes'
          rw [hbytes']
          exact ⟨.verbatim hline hn henc' rfl, hplain'⟩
        · trivial
      · rename_i hverbatim
        exact ⟨.aggregate hk hverbatim hline hn, hplain⟩

theorem iteratePass_passed {src : Source} (hp : src.Plain) : Passed fl src.bytes (iteratePass fl src) := by
  cases hb : src.bytes with
  | nil =>
    rw [hp.eq_nil hb]
    trivial
  | cons c t =>
    obtain ⟨r, hread, hbytes, hplain⟩ := hp.read_one hb
    rw [iteratePass, hread]
    dsimp only
    rw [List.headD_cons, ← hbytes]
    split
    · rename_i hnone
      exact ⟨.unknown hnone, hplain⟩
    · rename_i k hk
      obtain rfl : k.byte = c := by
        have hfind := List.find?_some hk
        exact beq_iff_eq.mp hfind
      unfold kindPass
      split
      · rename_i hsimple
        exact simplePass_passed hplain hsimple
      · rename_i haggregate
        exact aggregatePass_passed hplain haggregate

/-- A pass reads what it can skim. -/
theorem iteratePass_skims {src : Source} {t : Bytes} (hp : src.Plain) (h : Skims fl src.bytes t) :
    ∃ m rest, iteratePass fl src = .built m rest ∧ rest.bytes = t ∧ rest.Plain := by
  generalize hs : src.bytes = s at h
  cases h with
  | unknown hnone =>
    obtain ⟨r, hread, hbytes, hplain⟩ := hp.read_one hs
    refine ⟨{}, r, ?_, hbytes, hplain⟩
    rw [iteratePass, hread]
    simp only [List.headD_cons, hnone]
  | @simple k line _ m hk hline hm =>
    obtain ⟨r, hbytes, hplain, hpass⟩ := iteratePass_kind fl hp hs
    obtain ⟨rest, hread, hrest, hplain'⟩ := unmarshal_line hline hplain hbytes
    refine ⟨{m with totalMessageSize := 1 + Int64.ofNat (line.length + 2)}, rest, ?_, hrest, hplain'⟩
    rw [hpass, kindPass, hk, hread]
    simp only [simplePass, hm]
  | @aggregate k line _ n hk hne hline hn =>
    obtain ⟨r, hbytes, hplain, hpass⟩ := iteratePass_kind fl hp hs
    obtain ⟨rest, hread, hrest, hplain'⟩ := unmarshal_line hline hplain hbytes
    refine ⟨aggregateMessage k (1 + Int64.ofNat (line.length + 2) + n) n ⟨0, 0, 0⟩, rest, ?_, hrest, hplain'⟩
    rw [hpass, kindPass, hk, hread]
    simp only [aggregatePass, hn, if_neg hne]
  | @verbatim line enc _ n hline hn henc hlen =>
    obtain ⟨r, hbytes, hplain, hpass⟩ := iteratePass_kind fl hp hs
    obtain ⟨rest, hread, hrest, hplain'⟩ := unmarshal_line hline hplain hbytes
    obtain ⟨rest', hread', hrest', hplain''⟩ := unmarshal_line henc hplain' hrest
    obtain ⟨a, b, c, rfl⟩ := List.length_eq_three.mp hlen
    refine ⟨aggregateMessage .verbatimString (1 + Int64.ofNat (line.length + 2) + n + 3) n ⟨a, b, c⟩, rest', ?_, hrest',
      hplain''⟩
    rw [hpass, kindPass, hread]
    simp only [Kind.category, aggregatePass, hn, if_true, hread']

/-! ### A decoding -/

/-- **`Decode` returns no error exactly on a stream that trips it.** -/
theorem decode_err_none_iff {src : Source} (hp : src.Plain) : (decode fl src).2.1 = none ↔ Trips fl src.bytes := by
  change (iterate fl src).err = none ↔ _
  constructor
  · intro h
    fun_induction iterate fl src with
    | case1 src err rest hpass =>
      have hpassed : Passed fl src.bytes (iteratePass fl src) := iteratePass_passed hp
      rw [hpass] at hpassed
      dsimp only at h
      subst h
      exact hpassed
    | case2 src m rest hpass ih =>
      have hpassed : Passed fl src.bytes (iteratePass fl src) := iteratePass_passed hp
      rw [hpass] at hpassed
      exact .skim hpassed.1 (ih hpassed.2 h)
  · intro h
    generalize hs : src.bytes = s at h
    induction h generalizing src with
    | number hline hset =>
      obtain ⟨r, hbytes, hplain, hpass⟩ := iteratePass_kind fl hp hs
      obtain ⟨rest, hread, -, -⟩ := unmarshal_line hline hplain hbytes
      have hstop : iteratePass fl src = .stop none rest := by
        rw [hpass, kindPass, hread]
        simp only [Kind.category, simplePass, simpleMessage, hset]
      rw [iterate]
      split
      · rename_i hp'
        rw [hstop] at hp'
        cases hp'
        rfl
      · rename_i hp'
        rw [hstop] at hp'
        cases hp'
    | skim hskim _ ih =>
      obtain ⟨m, rest, hpass, hrest, hplain⟩ := iteratePass_skims hp (hs ▸ hskim)
      rw [iterate]
      split
      · rename_i hp'
        rw [hpass] at hp'
        cases hp'
      · rename_i hp'
        rw [hpass] at hp'
        cases hp'
        exact ih hplain hrest

/-- The message that a kind and its line stand for, up to what comes after the line. -/
def headerMessage (fl : Floats) (k : Kind) (line : Bytes) : Option Message :=
  match k.category with
  | .simple => (simpleMessage fl k line).toOption
  | .aggregate => (parseInt line).toOption.map fun n => {kind := k.byte, runLength := n}

structure SameValue (m m' : Message) : Prop where
  kind : m.kind = m'.kind
  simpleString : m.simpleString = m'.simpleString
  error : m.error = m'.error
  int : m.int = m'.int
  bool : m.bool = m'.bool
  double : m.double = m'.double
  bigNumber : m.bigNumber = m'.bigNumber
  runLength : m.runLength = m'.runLength

/-- The stream begins with a message: a kind, and a line that is valid for it. -/
def BeginsWith (fl : Floats) (s : Bytes) (m : Message) : Prop :=
  ∃ k line rest, s = k.byte :: (line ++ (eol ++ rest)) ∧ NoEol line ∧ headerMessage fl k line = some m

/-- What `Decode` accepts begins with a message, and that message is returned; a
stream that begins with none gives an error. -/
def Sound (fl : Floats) (src : Source) : Prop :=
  ((decode fl src).2.1 = none → ∃ m, BeginsWith fl src.bytes m ∧ SameValue (decode fl src).1 m) ∧
  ((∀ m, ¬BeginsWith fl src.bytes m) → (decode fl src).2.1 ≠ none)

theorem headerMessage_kind {k : Kind} {line : Bytes} {m : Message} (h : headerMessage fl k line = some m) :
    m.kind = k.byte := by
  unfold headerMessage at h
  split at h
  · rename_i hk
    cases hm : simpleMessage fl k line with
    | error err =>
      rw [hm] at h
      cases h
    | ok m' =>
      rw [hm] at h
      cases h
      exact simpleMessage_kind hk hm
  · obtain ⟨n, -, rfl⟩ := Option.map_eq_some_iff.mp h
    rfl

/-- The message that `Decode` returns has no kind, so it is none that a stream begins with. -/
theorem not_returned (src : Source) : ¬∃ m, BeginsWith fl src.bytes m ∧ SameValue (decode fl src).1 m := by
  rintro ⟨m, ⟨k, line, rest, -, -, hheader⟩, hsame⟩
  have hkind : (decode fl src).1.kind = k.byte := hsame.kind.trans (headerMessage_kind hheader)
  rw [decode, (iterate_more fl src).1] at hkind
  exact k.byte_ne_zero hkind.symm

/-- **`Decode` is sound on a stream exactly when the stream does not trip it**: when no
big number that cannot be read comes after any number of headers that can. -/
theorem sound_iff {src : Source} (hp : src.Plain) : Sound fl src ↔ ¬Trips fl src.bytes := by
  rw [← decode_err_none_iff hp]
  exact ⟨fun h herr => not_returned src (h.1 herr), fun h => ⟨fun herr => absurd herr h, fun _ => h⟩⟩

end

/-- A big number without the end of its line. -/
theorem sound_iff_cut : Sound noFloats [⟨ascii "(x", none⟩] := by
  have hshort (s : Bytes) (h : Trips noFloats s) (hlen : s.length = 2) : Kind.ofByte (s.headD 0) = none := by
    cases h with
    | number =>
      simp only [List.length_cons, List.length_append, eol_length] at hlen
      omega
    | skim hskim =>
      cases hskim with
      | unknown hnone => exact hnone
      | simple | aggregate | verbatim =>
        simp only [List.length_cons, List.length_append, eol_length] at hlen
        omega
  exact (sound_iff Source.plain_singleton).mpr fun h => absurd (hshort _ h (by decide)) (by decide)

/-- **Garbage can be accepted**: `(x` is no big number, and gives no error. -/
theorem not_sound : ¬∀ src : Source, src.Plain → Sound noFloats src := by
  intro h
  have hplain : Source.Plain [⟨ascii "(x\r\n", none⟩] := Source.plain_singleton
  have htrips : Trips noFloats (Source.bytes [⟨ascii "(x\r\n", none⟩]) :=
    have hline : ReadsLine (ascii "x") := ⟨by decide, trivial⟩
    Trips.number (s := []) hline (by decide)
  exact not_returned _ ((h _ hplain).1 ((decode_err_none_iff hplain).mpr htrips))

end AnarchoRedis.Protocol
