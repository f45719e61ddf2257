import AnarchoRedis.Protocol.Trace

/-! Errors that come with elements and with pairs.

An iterator yields an element or a pair together with an error or none. `reached`
collects the errors that are yielded to `Encode` while it runs, each with the world at
that moment. The error of an element is returned and nothing is written after it; the
error of a pair is overwritten by the result of encoding its first half, and `Encode`
goes on to write the pair (`reported_iff`). -/
namespace AnarchoRedis.Protocol
open Base

/-- An error that an iterator yields, and the world when it does. -/
structure Reached where
  /-- It comes with a pair. -/
  pair : Bool
  err : Err
  world : World

/-- What a step is yielded on its way. -/
abbrev Watch := World → List Reached

def Watch.nothing : Watch := fun _ => []

/-- What a step is yielded, and then the next if there is a next. -/
def Watch.andThen (s : Step World) (a b : Watch) : Watch := fun w =>
  a w ++ match s w with
    | some (_, none, w') => b w'
    | _ => []

/-- The error that comes with a pair, if any. -/
def Watch.pair (err : Option Err) : Watch := fun w => err.toList.map (⟨true, ·, w⟩)

/-- Ranging over `Iterate` on the connection. -/
def reachedConn (fl : Floats) (pair : Bool) : Watch := fun w =>
  let y := iterate fl w.conn
  y.err.toList.map (⟨pair, ·, {w with conn := y.rest}⟩)

section
variable (fl : Floats) (e : Encoder)

mutual

/-- What `encode` is yielded. -/
def reached : Message → Watch
  | ⟨kind, _, _, _, _, _, _, _, runLength, _, encoding, seq, assoc⟩ =>
    .andThen (write [kind]) .nothing <|
      match Kind.ofByte kind with
      | none => .nothing
      | some k =>
        match k.category with
        | .simple => .nothing
        | .aggregate =>
          .andThen (write (formatInt runLength.toInt)) .nothing <| .andThen (write eol) .nothing <|
            .andThen (if k = .verbatimString then (write encoding.bytes).andThen (write eol) else .skip) .nothing <|
              match k with
              | .array | .push | .set => reachedSeq seq
              | .map | .attribute => reachedAssoc assoc
              | _ => .nothing

def reachedSeq : Option (Feed Message) → Watch
  | none => .nothing
  | some .conn => reachedConn fl false
  | some (.items xs) => reachedItems xs

def reachedItems : List (Message × Option Err) → Watch
  | [] => .nothing
  | (_, some err) :: _ => fun w => [⟨false, err, w⟩]
  | (msg, none) :: rest => .andThen (encode fl e msg) (reached msg) (reachedItems rest)

def reachedAssoc : Option (Feed (Message × Message)) → Watch
  | none => .nothing
  | some .conn => reachedConn fl true
  | some (.items kvs) => reachedPairs kvs

def reachedPairs : List ((Message × Message) × Option Err) → Watch
  | [] => .nothing
  | ((k, v), err) :: rest => fun w =>
    Watch.pair err w ++
      Watch.andThen (encode fl e k) (reached k) (.andThen (encode fl e v) (reached v) (reachedPairs rest)) w

end

end

/-! ### What becomes of an error -/

/-- The step returns the error, and nothing has been written since it was yielded. -/
def Reports (s : Step World) (w : World) (x : Reached) : Prop :=
  ∃ n w', s w = some (n, some x.err, w') ∧ w'.out.out = x.world.out.out

/-- The step goes on to write a byte: it returns what that call fails with, or it ends
with the byte written. -/
structure GoesOn (b : UInt8) (s : Step World) (w : World) (x : Reached) : Prop where
  failed : ∀ {k : Nat} {err : Err} {out : Writer}, x.world.out.write [b] = (k, some err, out) →
    ∃ n left, s w = some (n, some err, ⟨left, out⟩)
  written : ∀ {k : Nat} {out : Writer}, x.world.out.write [b] = (k, none, out) →
    ∀ {n : Nat} {err : Option Err} {w' : World}, s w = some (n, err, w') → out.out <+: w'.out.out

/-- The next call of `Write` is refused as a whole, with this very error. -/
def Refused (x : Reached) : Prop := x.world.out.faults.head? = some (some (0, x.err))

theorem GoesOn.reports_iff {b : UInt8} {s : Step World} {w : World} {x : Reached} (h : GoesOn b s w x) :
    Reports s w x ↔ Refused x := by
  -- a call that succeeds leaves a byte behind the error
  have hbyte {k : Nat} {out : Writer} (hw : x.world.out.write [b] = (k, none, out))
      (hout : out.out = x.world.out.out ++ [b]) : ¬ Reports s w x := by
    rintro ⟨n, w', hrun, hsame⟩
    have hlen := (h.written hw hrun).length_le
    rw [hsame, hout, List.length_append, List.length_singleton] at hlen
    omega
  unfold Refused
  rcases hf : x.world.out.faults with _ | ⟨_ | ⟨k, err⟩, rest⟩
  · have hw : x.world.out.write [b] = (1, none, ⟨x.world.out.out ++ [b], []⟩) := by
      simp only [Writer.write, hf, List.length_singleton]
    exact iff_of_false (hbyte hw rfl) (by simp)
  · have hw : x.world.out.write [b] = (1, none, ⟨x.world.out.out ++ [b], rest⟩) := by
      simp only [Writer.write, hf, List.length_singleton]
    exact iff_of_false (hbyte hw rfl) (by simp)
  · have hw : x.world.out.write [b] = (([b].take k).length, some err, ⟨x.world.out.out ++ [b].take k, rest⟩) := by
      simp only [Writer.write, hf]
    obtain ⟨n, left, hrun⟩ := h.failed hw
    simp only [List.head?_cons, Option.some.injEq, Prod.mk.injEq]
    constructor
    · rintro ⟨n', w', hrun', hsame⟩
      rw [hrun] at hrun'
      simp only [Option.some.injEq, Prod.mk.injEq] at hrun'
      obtain ⟨_, herr, rfl⟩ := hrun'
      refine ⟨?_, herr⟩
      rw [List.append_right_eq_self, List.take_eq_nil_iff] at hsame
      exact hsame.resolve_right (List.cons_ne_nil _ _)
    · rintro ⟨rfl, rfl⟩
      exact ⟨n, _, hrun, by simp⟩

/-- Of what the step is yielded, the errors of elements are reported, and at those of
pairs it goes on. -/
structure Watched (s : Step World) (r : Watch) : Prop where
  element : ∀ {w : World} {x : Reached}, x ∈ r w → x.pair = false → Reports s w x
  pair : ∀ {w : World} {x : Reached}, x ∈ r w → x.pair = true → ∃ b, GoesOn b s w x
  traced : Traced s

/-- What has been written stays. -/
theorem Traced.grows {s : Step World} {w w' : World} {n : Nat} {err : Option Err} (h : Traced s)
    (hrun : s w = some (n, err, w')) : w.out.out <+: w'.out.out := by
  obtain ⟨conn, out⟩ := w
  obtain ⟨calls, fin, conn', hcalls⟩ := h conn
  obtain ⟨taken, hout, -⟩ := out.deliver_takes calls
  have hstays : out.out <+: (out.deliver calls).2.2.out := ⟨taken, hout.symm⟩
  rcases hd : out.deliver calls with ⟨k, _ | err', out'⟩
  · rw [hd] at hstays
    rw [hcalls.finished hd] at hrun
    obtain ⟨err, -, hr⟩ := Option.map_eq_some_iff.mp hrun
    cases hr
    exact hstays
  · rw [hd] at hstays
    obtain ⟨left, hfailed⟩ := hcalls.failed hd
    rw [hfailed] at hrun
    cases hrun
    exact hstays

section
variable {s t : Step World} {a b : Watch} {w w' : World} {x : Reached} {n : Nat}

theorem andThen_failed {err : Err} (h : s w = some (n, some err, w')) : s.andThen t w = some (n, some err, w') := by
  rw [Step.andThen, h]

theorem andThen_next (h : s w = some (n, none, w')) : s.andThen t w = (t w').map fun r => (n + r.1, r.2) := by
  rw [Step.andThen, h]

theorem Reports.andThen (h : Reports s w x) (t : Step World) : Reports (s.andThen t) w x := by
  obtain ⟨n, w', hrun, hsame⟩ := h
  exact ⟨n, w', andThen_failed hrun, hsame⟩

theorem Reports.after (h : Reports t w' x) (hs : s w = some (n, none, w')) : Reports (s.andThen t) w x := by
  obtain ⟨k, w'', hrun, hsame⟩ := h
  exact ⟨n + k, w'', by rw [andThen_next hs, hrun, Option.map_some], hsame⟩

theorem GoesOn.andThen {c : UInt8} (h : GoesOn c s w x) (ht : Traced t) : GoesOn c (s.andThen t) w x where
  failed hw := by
    obtain ⟨n, left, hrun⟩ := h.failed hw
    exact ⟨n, left, andThen_failed hrun⟩
  written {k out} hw {n err w'} hrun := by
    rcases hs : s w with _ | ⟨j, _ | err', w₁⟩
    · rw [Step.andThen, hs] at hrun
      cases hrun
    · rw [andThen_next hs] at hrun
      obtain ⟨⟨i, e, w₂⟩, hrun₂, hr⟩ := Option.map_eq_some_iff.mp hrun
      cases hr
      exact (h.written hw hs).trans (ht.grows hrun₂)
    · rw [andThen_failed hs] at hrun
      cases hrun
      exact h.written hw hs

theorem GoesOn.after {c : UInt8} (h : GoesOn c t w' x) (hs : s w = some (n, none, w')) : GoesOn c (s.andThen t) w x where
  failed hw := by
    obtain ⟨k, left, hrun⟩ := h.failed hw
    exact ⟨n + k, left, by rw [andThen_next hs, hrun, Option.map_some]⟩
  written {k out} hw {_ _ _} hrun := by
    rw [andThen_next hs] at hrun
    obtain ⟨⟨i, e, w₂⟩, hrun₂, hr⟩ := Option.map_eq_some_iff.mp hrun
    cases hr
    exact h.written hw hrun₂

theorem goesOn_write (c : UInt8) (pair : Bool) (err : Err) (w : World) : GoesOn c (write [c]) w ⟨pair, err, w⟩ where
  failed {k err out} hw := ⟨k, w.conn, by rw [write, show w.out.write [c] = _ from hw]⟩
  written {k out} hw {_ _ _} hrun := by
    rw [write, show w.out.write [c] = _ from hw] at hrun
    cases hrun
    exact List.prefix_rfl

theorem watched_nothing (h : Traced s) : Watched s .nothing :=
  ⟨fun hx => absurd hx List.not_mem_nil, fun hx => absurd hx List.not_mem_nil, h⟩

theorem mem_andThen (h : x ∈ Watch.andThen s a b w) : x ∈ a w ∨ ∃ n w', s w = some (n, none, w') ∧ x ∈ b w' := by
  rw [Watch.andThen, List.mem_append] at h
  refine h.imp_right fun hx => ?_
  rcases hs : s w with _ | ⟨n, _ | err, w'⟩
  · rw [hs] at hx
    exact absurd hx List.not_mem_nil
  · rw [hs] at hx
    exact ⟨n, w', rfl, hx⟩
  · rw [hs] at hx
    exact absurd hx List.not_mem_nil

theorem Watched.andThen (hs : Watched s a) (ht : Watched t b) : Watched (s.andThen t) (.andThen s a b) where
  element hx hp := by
    rcases mem_andThen hx with hx | ⟨n, w', hrun, hx⟩
    · exact (hs.element hx hp).andThen t
    · exact (ht.element hx hp).after hrun
  pair hx hp := by
    rcases mem_andThen hx with hx | ⟨n, w', hrun, hx⟩
    · obtain ⟨c, hon⟩ := hs.pair hx hp
      exact ⟨c, hon.andThen ht.traced⟩
    · obtain ⟨c, hon⟩ := ht.pair hx hp
      exact ⟨c, hon.after hrun⟩
  traced := hs.traced.andThen ht.traced

/-- Nothing is yielded while the header of an aggregate is written. -/
theorem watched_header {n : Bytes} (hs : Traced s) (ht : Watched t b) :
    Watched ((write n).andThen ((write eol).andThen (s.andThen t)))
      (.andThen (write n) .nothing (.andThen (write eol) .nothing (.andThen s .nothing b))) :=
  (watched_nothing (traced_write n)).andThen
    ((watched_nothing (traced_write eol)).andThen ((watched_nothing hs).andThen ht))

end

/-! ### Encoding -/

section
variable (fl : Floats) (e : Encoder)

theorem watched_connSeq : Watched (encodeConnSeq fl) (reachedConn fl false) where
  element {w x} hx hp := by
    obtain ⟨err, herr, rfl⟩ := List.mem_map.mp hx
    rw [Option.mem_toList] at herr
    exact ⟨0, _, by simp only [encodeConnSeq, herr], rfl⟩
  pair {w x} hx hp := by
    obtain ⟨err, herr, rfl⟩ := List.mem_map.mp hx
    cases hp
  traced := traced_encodeConnSeq fl

/-- On the connection an error comes with a pair of zero messages, which are written. -/
theorem watched_connAssoc : Watched (encodeConnAssoc fl) (reachedConn fl true) where
  element {w x} hx hp := by
    obtain ⟨err, herr, rfl⟩ := List.mem_map.mp hx
    cases hp
  pair {w x} hx hp := by
    obtain ⟨err, herr, rfl⟩ := List.mem_map.mp hx
    rw [Option.mem_toList] at herr
    have hrun : encodeConnAssoc fl w =
        ((write [0]).andThen (write [0])).andThen Step.skip {w with conn := (iterate fl w.conn).rest} := by
      simp only [encodeConnAssoc, herr, chunk]
      rfl
    have hon : GoesOn 0 (((write [0]).andThen (write [0])).andThen Step.skip)
        {w with conn := (iterate fl w.conn).rest} ⟨true, err, {w with conn := (iterate fl w.conn).rest}⟩ :=
      ((goesOn_write 0 true err _).andThen (traced_write [0])).andThen traced_skip
    refine ⟨0, fun hw => ?_, fun hw _ _ _ h => ?_⟩
    · rw [hrun]
      exact hon.failed hw
    · rw [hrun] at h
      exact hon.written hw h
  traced := traced_encodeConnAssoc fl

mutual

theorem watched_encode : ∀ m : Message, Watched (encode fl e m) (reached fl e m)
  | ⟨kind, _, _, _, _, _, _, _, runLength, _, encoding, seq, assoc⟩ => by
    rw [encode, reached]
    refine (watched_nothing (traced_write _)).andThen ?_
    rcases Kind.ofByte kind with _ | k
    · exact watched_nothing traced_skip
    · cases k with
      | simpleString | error | int | null | bool | double | bigNumber =>
        exact watched_nothing (traced_encodeSimple fl _)
      | bulkString | bulkError => exact watched_header traced_skip (watched_nothing (traced_writeBulk e _))
      | verbatimString =>
        exact watched_header ((traced_write _).andThen (traced_write _)) (watched_nothing (traced_writeBulk e _))
      | array | set | push => exact watched_header traced_skip (watched_encodeSeq seq)
      | _ => exact watched_header traced_skip (watched_encodeAssoc assoc)

theorem watched_encodeSeq : ∀ s : Option (Feed Message), Watched (encodeSeq fl e s) (reachedSeq fl e s)
  | none => by
    rw [encodeSeq, reachedSeq]
    exact watched_nothing traced_crash
  | some .conn => by
    rw [encodeSeq, reachedSeq]
    exact watched_connSeq fl
  | some (.items xs) => by
    rw [encodeSeq, reachedSeq]
    exact watched_encodeItems xs

theorem watched_encodeItems : ∀ xs : List (Message × Option Err), Watched (encodeItems fl e xs) (reachedItems fl e xs)
  | [] => by
    rw [encodeItems, reachedItems]
    exact watched_nothing traced_skip
  | (_, some err) :: _ => by
    rw [encodeItems, reachedItems]
    refine ⟨fun hx _ => ?_, fun hx hp => ?_, traced_fail err⟩
    · rw [List.mem_singleton.mp hx]
      exact ⟨0, _, rfl, rfl⟩
    · rw [List.mem_singleton.mp hx] at hp
      cases hp
  | (msg, none) :: rest => by
    rw [encodeItems, reachedItems]
    exact (watched_encode msg).andThen (watched_encodeItems rest)

theorem watched_encodeAssoc : ∀ s : Option (Feed (Message × Message)),
    Watched (encodeAssoc fl e s) (reachedAssoc fl e s)
  | none => by
    rw [encodeAssoc, reachedAssoc]
    exact watched_nothing traced_crash
  | some .conn => by
    rw [encodeAssoc, reachedAssoc]
    exact watched_connAssoc fl
  | some (.items kvs) => by
    rw [encodeAssoc, reachedAssoc]
    exact watched_encodePairs kvs

theorem watched_encodePairs : ∀ kvs : List ((Message × Message) × Option Err),
    Watched (encodePairs fl e kvs) (reachedPairs fl e kvs)
  | [] => by
    rw [encodePairs, reachedPairs]
    exact watched_nothing traced_skip
  | ((k, v), err) :: rest => by
    have hrest := (watched_encode v).andThen (watched_encodePairs rest)
    have htail := (watched_encode k).andThen hrest
    rw [encodePairs, reachedPairs]
    refine ⟨fun hx hp => ?_, fun hx hp => ?_, htail.traced⟩
    · rcases List.mem_append.mp hx with hx | hx
      · obtain ⟨err, -, rfl⟩ := List.mem_map.mp hx
        cases hp
      · exact htail.element hx hp
    · rcases List.mem_append.mp hx with hx | hx
      -- the pair is written as if it had come without an error
      · obtain ⟨err, -, rfl⟩ := List.mem_map.mp hx
        obtain ⟨tail, hk, ht⟩ := encode_starts fl e k
        rw [hk]
        exact ⟨k.kind, ((goesOn_write k.kind true err _).andThen ht).andThen hrest.traced⟩
      · exact htail.pair hx hp

end

/-! ### Reporting -/

/-- Every error that is yielded to `Encode` is returned, and nothing is written after
it. -/
def Reported (m : Message) (w : World) : Prop := ∀ x ∈ reached fl e m w, Reports (encode fl e m) w x

/-- **`Encode` reports the errors of elements at every depth, and those of pairs only
where the writer happens to refuse the next byte with the same error.** -/
theorem reported_iff (m : Message) (w : World) :
    Reported fl e m w ↔ ∀ x ∈ reached fl e m w, x.pair = true → Refused x := by
  have hwatched := watched_encode fl e m
  constructor
  · intro h x hx hp
    obtain ⟨b, hon⟩ := hwatched.pair hx hp
    exact hon.reports_iff.mp (h x hx)
  · intro h x hx
    cases hp : x.pair with
    | false => exact hwatched.element hx hp
    | true =>
      obtain ⟨b, hon⟩ := hwatched.pair hx hp
      exact hon.reports_iff.mpr (h x hx hp)

end

/-- A map of one pair, which comes with an error. -/
def brokenMap : Message where
  kind := Kind.map.byte
  runLength := 1
  assoc := some (.items [((.ofInt 1, .ofInt 2), some (.text (ascii "broken")))])

/-- **The error of a pair is lost**: the pair is written and nothing is reported. -/
theorem not_reported : ¬ ∀ (m : Message) (w : World), Reported noFloats {} m w := by
  intro hall
  have hreached : reached noFloats {} brokenMap ⟨[], ⟨[], []⟩⟩ =
    [⟨true, .text (ascii "broken"), ⟨[], ⟨ascii "%1\r\n", []⟩⟩⟩] := rfl
  have hrun : encode noFloats {} brokenMap ⟨[], ⟨[], []⟩⟩ = some (12, none, ⟨[], ⟨ascii "%1\r\n:1\r\n:2\r\n", []⟩⟩) := rfl
  obtain ⟨n, w', hreport, -⟩ := hall brokenMap ⟨[], ⟨[], []⟩⟩ _ (hreached ▸ List.mem_singleton_self _)
  rw [hrun] at hreport
  cases hreport

end AnarchoRedis.Protocol
