import Mathlib.Data.Seq.Basic
import AnarchoRedis.Base.Iterators
import AnarchoRedis.Protocol.Coder

/-! Pairs from an iterator.

`chunk` ranges over an iterator and calls its consumer with every second value and the
one before. It drops what the consumer answers, and after an error it goes on with the
value that came with the error in its place. So whatever the consumer wants it is called
with the pairs and the errors of the whole source, and that is right exactly if an error
is the last value and no second half of a pair, and the consumer never wants to stop
before the last call (`chunk_obeys_iff`). The counter of the values is a machine integer
and its remainder an index: beyond `2 ^ 63 + 1` values the index is `-1`. -/
namespace AnarchoRedis.Protocol.Chunk
open Base Iterators

/-- The variables of the loop. -/
structure Pairing where
  kv : Message × Message := ({}, {})
  i : Int64 := 0

/-- `kv[i%2] = msg` and `i++`. An index of `-1` crashes. -/
def Pairing.put (p : Pairing) (msg : Message) : Option Pairing :=
  if p.i % 2 = 0 then some ⟨(msg, p.kv.2), p.i + 1⟩
  else if p.i % 2 = 1 then some ⟨(p.kv.1, msg), p.i + 1⟩
  else none

/-- What the consumer is called with. -/
abbrev Call := (Message × Message) × Option Err

section
variable {σ : Type}

/-- A call whose answer is dropped. -/
def called (yield : Consumer Call σ) (call : Call) (s : σ) : Option σ := (yield call s).map Prod.snd

/-- An error is passed on, with what there is of a pair. -/
def passError (yield : Consumer Call σ) (p : Pairing) (err : Option Err) (s : σ) : Option σ :=
  match err with
  | some err => called yield (p.kv, some err) s
  | none => some s

/-- A pair is passed on once it is complete. -/
def passPair (yield : Consumer Call σ) (p : Pairing) (s : σ) : Option σ :=
  if p.i % 2 = 0 then called yield (p.kv, none) s else some s

/-- The body of the loop, which never leaves it. -/
def body (yield : Consumer Call σ) : Consumer (Message × Option Err) (Pairing × σ)
  | (msg, err), (p, s) => do
    let s ← passError yield p err s
    let p ← p.put msg
    let s ← passPair yield p s
    some (true, p, s)

end

def chunk (seq : Iter (Message × Option Err)) : Iter Call :=
  fun yield s => (seq (body yield) (({} : Pairing), s)).map Prod.snd

/-! ### What is expected of it -/

section
variable {α : Type}

/-- The pairs that precede the first error. -/
def pairsBefore : List (α × Option Err) → List (α × α)
  | (k, none) :: (v, none) :: rest => (k, v) :: pairsBefore rest
  | _ => []

def firstError (xs : List (α × Option Err)) : Option Err := xs.findSome? Prod.snd

/-- The pairs before the first error, and then the error; what pair comes with the error
is left open. -/
def expected (kv : α × α) (xs : List (α × Option Err)) : List ((α × α) × Option Err) :=
  (pairsBefore xs).map (·, none) ++ (firstError xs).toList.map (kv, some ·)

/-- How many calls that is. -/
def due (xs : List (α × Option Err)) : Nat := (pairsBefore xs).length + (firstError xs).toList.length

/-- An error is the last value, and no second half of a pair. -/
def ErrorsLast (xs : List (α × Option Err)) : Prop :=
  ∀ i msg err, xs[i]? = some (msg, some err) → i % 2 = 0 ∧ i + 1 = xs.length

end

/-- With a source of these values, `chunk` does not crash, and its consumer is called as
is expected. -/
def Obeys (wants : List Call → Bool) (xs : List (Message × Option Err)) : Prop :=
  ∃ kv calls, chunk (ofList xs) (recorder wants) [] = some calls ∧ Follows wants (expected kv xs) calls

/-- The consumer wants more as long as a pair or the error is to come. -/
def Accepts (wants : List Call → Bool) (xs : List (Message × Option Err)) : Prop :=
  ∀ n, 0 < n → n < due xs → wants (((pairsBefore xs).take n).map (·, none)) = true

/-- The values and the consumer with which `chunk` is right. -/
structure TameList (wants : List Call → Bool) (xs : List (Message × Option Err)) : Prop where
  errors : ErrorsLast xs
  accepts : Accepts wants xs
  counted : xs.length ≤ 2 ^ 63 + 1

/-- The same of a source that may have no end: an error comes last and is no second half,
the consumer wants more as long as more is to come, and the values can be counted. -/
structure Tame (wants : List Call → Bool) (xs : Stream'.Seq (Message × Option Err)) : Prop where
  errors : ∀ i msg err, xs.get? i = some (msg, some err) → i % 2 = 0 ∧ xs.TerminatedAt (i + 1)
  accepts : ∀ n, Accepts wants (xs.take n)
  counted : xs.TerminatedAt (2 ^ 63 + 1)

/-! ### The calls it makes -/

theorem ofNat_mod_two {n : Nat} (h : n ≤ 2 ^ 63) : Int64.ofNat n % 2 = if n % 2 = 0 then 0 else 1 := by
  rcases h.lt_or_eq with h | rfl
  · refine Int64.toInt.inj ?_
    rw [Int64.toInt_mod, Int64.toInt_ofNat_of_lt h]
    show (n : Int).tmod 2 = _
    rw [Int.tmod_eq_emod_of_nonneg n.cast_nonneg]
    split
    · show (n : Int) % 2 = 0
      omega
    · show (n : Int) % 2 = 1
      omega
  · decide

/-- The value put in its place, the second if the first is taken. -/
def place (kv : Message × Message) (half : Bool) (msg : Message) : Message × Message :=
  if half then (kv.1, msg) else (msg, kv.2)

/-- The calls for one value. -/
def made (kv : Message × Message) (half : Bool) (msg : Message) (err : Option Err) : List Call :=
  err.toList.map (kv, some ·) ++ if half then [(place kv half msg, none)] else []

theorem chunk_cons (kv : Message × Message) (half : Bool) (msg : Message) (err : Option Err)
    (rest : List (Message × Option Err)) :
    Protocol.chunk kv half ((msg, err) :: rest) =
      made kv half msg err ++ Protocol.chunk (place kv half msg) (!half) rest := by
  cases err <;> cases half <;> rfl

section
variable {wants : List Call → Bool} {kv : Message × Message} {n : Nat} {calls : List Call}

theorem put_ofNat (h : n ≤ 2 ^ 63) (msg : Message) :
    Pairing.put ⟨kv, Int64.ofNat n⟩ msg = some ⟨place kv (n % 2 == 1) msg, Int64.ofNat (n + 1)⟩ := by
  rw [Pairing.put, ofNat_mod_two h, Int64.ofNat_add]
  rcases Nat.mod_two_eq_zero_or_one n with hn | hn
  · rw [hn]
    rfl
  · rw [hn]
    rfl

theorem passError_recorder (p : Pairing) (err : Option Err) :
    passError (recorder wants) p err calls = some (calls ++ err.toList.map (p.kv, some ·)) := by
  cases err with
  | none => exact congrArg some (List.append_nil calls).symm
  | some err => rfl

/-- A pair is complete with every second value. -/
theorem passPair_recorder (h : n ≤ 2 ^ 63) :
    passPair (recorder wants) ⟨kv, Int64.ofNat (n + 1)⟩ calls =
      some (calls ++ if n % 2 == 1 then [(kv, none)] else []) := by
  have hcomplete : Int64.ofNat (n + 1) % 2 = 0 ↔ n % 2 = 1 := by
    rcases h.lt_or_eq with h | rfl
    · rw [ofNat_mod_two h]
      rcases Nat.mod_two_eq_zero_or_one n with hn | hn
      · exact iff_of_false (by simp [Nat.add_mod, hn]) (by omega)
      · exact iff_of_true (by simp [Nat.add_mod, hn]) hn
    · decide
  rw [passPair]
  rcases Nat.mod_two_eq_zero_or_one n with hn | hn
  · rw [if_neg (by rw [hcomplete]; omega), hn]
    exact congrArg some (List.append_nil calls).symm
  · rw [if_pos (hcomplete.mpr hn), hn]
    rfl

theorem body_step (h : n ≤ 2 ^ 63) (msg : Message) (err : Option Err) :
    body (recorder wants) (msg, err) (⟨kv, Int64.ofNat n⟩, calls) =
      some (true, ⟨place kv (n % 2 == 1) msg, Int64.ofNat (n + 1)⟩, calls ++ made kv (n % 2 == 1) msg err) := by
  simp only [body, passError_recorder, put_ofNat h, passPair_recorder h, Option.bind_eq_bind, Option.bind_some,
    made, List.append_assoc]

/-- Where the counter has turned negative the index does too. -/
theorem body_crash (msg : Message) (err : Option Err) :
    body (recorder wants) (msg, err) (⟨kv, Int64.ofNat (2 ^ 63 + 1)⟩, calls) = none := by
  have hindex : Int64.ofNat (2 ^ 63 + 1) % 2 = -1 := by decide
  have hput : Pairing.put ⟨kv, Int64.ofNat (2 ^ 63 + 1)⟩ msg = none := by
    rw [Pairing.put, hindex]
    rfl
  simp only [body, passError_recorder, hput, Option.bind_eq_bind, Option.bind_some, Option.bind_none]

theorem ofList_body {xs : List (Message × Option Err)} (h : n + xs.length ≤ 2 ^ 63 + 1) :
    (ofList xs (body (recorder wants)) (⟨kv, Int64.ofNat n⟩, calls)).map Prod.snd =
      some (calls ++ Protocol.chunk kv (n % 2 == 1) xs) := by
  induction xs generalizing n kv calls with
  | nil => simp [ofList, Protocol.chunk]
  | cons x rest ih =>
    obtain ⟨msg, err⟩ := x
    rw [List.length_cons] at h
    have hhalf : ((n + 1) % 2 == 1) = !(n % 2 == 1) := by
      rcases Nat.mod_two_eq_zero_or_one n with hn | hn
      · simp [Nat.add_mod, hn]
      · simp [Nat.add_mod, hn]
    rw [ofList, body_step (by omega), chunk_cons, ← List.append_assoc, ← hhalf]
    exact ih (by omega)

theorem ofList_body_crash {xs : List (Message × Option Err)} (hn : n ≤ 2 ^ 63 + 1) (h : 2 ^ 63 + 1 < n + xs.length) :
    ofList xs (body (recorder wants)) (⟨kv, Int64.ofNat n⟩, calls) = none := by
  induction xs generalizing n kv calls with
  | nil =>
    rw [List.length_nil] at h
    omega
  | cons x rest ih =>
    obtain ⟨msg, err⟩ := x
    rw [List.length_cons] at h
    rw [ofList]
    rcases hn.lt_or_eq with hlt | rfl
    · rw [body_step (by omega)]
      exact ih (by omega) (by omega)
    · rw [body_crash]

/-- **Whatever the consumer wants, it gets the calls for all values**, as long as they can
be counted. -/
theorem chunk_calls (wants : List Call → Bool) {xs : List (Message × Option Err)} (h : xs.length ≤ 2 ^ 63 + 1) :
    chunk (ofList xs) (recorder wants) [] = some (Protocol.chunk ({}, {}) false xs) :=
  ofList_body (n := 0) (by omega)

theorem chunk_crash (wants : List Call → Bool) {xs : List (Message × Option Err)} (h : 2 ^ 63 + 1 < xs.length) :
    chunk (ofList xs) (recorder wants) [] = none := by
  have hcrash : ofList xs (body (recorder wants)) (⟨({}, {}), Int64.ofNat 0⟩, []) = none :=
    ofList_body_crash (Nat.zero_le _) (by omega)
  exact congrArg (Option.map Prod.snd) hcrash

end

/-! ### The calls it is to make -/

section
variable {α : Type}

/-- A source is cut into the pairs at its head, and what has no such pair there. -/
@[elab_as_elim]
theorem source_induction {motive : List (α × Option Err) → Prop} (nil : motive []) (single : ∀ k, motive [(k, none)])
    (first : ∀ k err rest, motive ((k, some err) :: rest))
    (second : ∀ k v err rest, motive ((k, none) :: (v, some err) :: rest))
    (pair : ∀ k v rest, motive rest → motive ((k, none) :: (v, none) :: rest)) (xs : List (α × Option Err)) :
    motive xs := by
  fun_induction pairsBefore xs with
  | case1 k v rest ih => exact pair k v rest ih
  | case2 xs hno =>
    rcases xs with _ | ⟨⟨k, _ | err⟩, rest⟩
    · exact nil
    · rcases rest with _ | ⟨⟨v, _ | err⟩, rest⟩
      · exact single k
      · exact absurd rfl (hno k v rest)
      · exact second k v err rest
    · exact first k err rest

/-- All calls but the last are pairs. -/
theorem le_pairs_of_lt_due {xs : List (α × Option Err)} {n : Nat} (h : n < due xs) : n ≤ (pairsBefore xs).length := by
  have herr : (firstError xs).toList.length ≤ 1 := Option.length_toList_le
  rw [due] at h
  omega

theorem expected_pair (kv : α × α) (k v : α) (rest : List (α × Option Err)) :
    expected kv ((k, none) :: (v, none) :: rest) = ((k, v), none) :: expected kv rest := rfl

theorem errorsLast_first {k : α} {err : Err} {rest : List (α × Option Err)} :
    ErrorsLast ((k, some err) :: rest) ↔ rest = [] := by
  constructor
  · intro h
    have hlen := (h 0 k err rfl).2
    rw [List.length_cons] at hlen
    exact List.length_eq_zero_iff.mp (by omega)
  · intro hnil i msg err' hi
    subst hnil
    cases i with
    | zero => exact ⟨rfl, rfl⟩
    | succ i => cases hi

theorem not_errorsLast_second {k v : α} {err : Err} {rest : List (α × Option Err)} :
    ¬ErrorsLast ((k, none) :: (v, some err) :: rest) := fun h => absurd (h 1 v err rfl).1 (by decide)

theorem errorsLast_pair {k v : α} {rest : List (α × Option Err)} :
    ErrorsLast ((k, none) :: (v, none) :: rest) ↔ ErrorsLast rest := by
  constructor
  · intro h i msg err hi
    obtain ⟨heven, hlast⟩ := h (i + 2) msg err hi
    simp only [List.length_cons] at hlast
    exact ⟨by omega, by omega⟩
  · intro h i msg err hi
    match i with
    | 0 | 1 => cases hi
    | i + 2 =>
      obtain ⟨heven, hlast⟩ := h i msg err hi
      simp only [List.length_cons]
      exact ⟨by omega, by omega⟩

end

/-- A value for the second half completes a pair. -/
theorem chunk_half_eq_nil (kv : Message × Message) {xs : List (Message × Option Err)} :
    Protocol.chunk kv true xs = [] ↔ xs = [] := by
  cases xs with
  | nil => exact iff_of_true rfl rfl
  | cons x rest =>
    obtain ⟨msg, err⟩ := x
    cases err <;> simp [Protocol.chunk]

/-- It never makes too few calls. -/
theorem expected_length_le (kv kv' : Message × Message) (xs : List (Message × Option Err)) :
    (expected kv' xs).length ≤ (Protocol.chunk kv false xs).length := by
  induction xs using source_induction generalizing kv with
  | nil => exact Nat.le_refl 0
  | single k => exact Nat.le_refl 0
  | first k err rest => exact Nat.succ_le_succ (Nat.zero_le _)
  | second k v err rest => exact Nat.succ_le_succ (Nat.zero_le _)
  | pair k v rest ih => exact Nat.succ_le_succ (ih (k, v))

/-- They are those expected if an error comes last, and not as a second half. -/
theorem chunk_eq_expected_iff (kv : Message × Message) (xs : List (Message × Option Err)) :
    (∃ kv', Protocol.chunk kv false xs = expected kv' xs) ↔ ErrorsLast xs := by
  induction xs using source_induction generalizing kv with
  | nil => exact iff_of_true ⟨kv, rfl⟩ fun i msg err hi => by cases hi
  | single k =>
    refine iff_of_true ⟨kv, rfl⟩ fun i msg err hi => ?_
    cases i with
    | zero => cases hi
    | succ i => cases hi
  | first k err rest =>
    rw [errorsLast_first, ← chunk_half_eq_nil (k, kv.2)]
    constructor
    · intro h
      obtain ⟨kv', heq⟩ := h
      exact (List.cons.inj heq).2
    · intro hnil
      exact ⟨kv, congrArg ((kv, some err) :: ·) hnil⟩
  | second k v err rest =>
    refine iff_of_false ?_ not_errorsLast_second
    intro h
    obtain ⟨kv', heq⟩ := h
    cases (List.cons.inj heq).2
  | pair k v rest ih =>
    rw [errorsLast_pair, ← ih (k, v)]
    refine exists_congr fun kv' => ?_
    rw [expected_pair]
    exact List.cons_inj_right _

/-- Only pairs come before the last call. -/
theorem stays_expected_iff {wants : List Call → Bool} {kv : Message × Message} {xs : List (Message × Option Err)} :
    Stays wants (expected kv xs) ↔ Accepts wants xs := by
  have hlen : (expected kv xs).length = due xs := by
    rw [expected, List.length_append, List.length_map, List.length_map, due]
  rw [Stays, hlen, Accepts]
  refine forall_congr' fun n => forall₂_congr fun _ hn => ?_
  have hle : n ≤ ((pairsBefore xs).map fun p => (p, (none : Option Err))).length := by
    rw [List.length_map]
    exact le_pairs_of_lt_due hn
  rw [expected, List.take_append_of_le_length hle, List.map_take]

/-- `chunk` obeys the protocol with exactly the tame values. -/
theorem obeys_iff (wants : List Call → Bool) (xs : List (Message × Option Err)) :
    Obeys wants xs ↔ TameList wants xs := by
  by_cases hcounted : xs.length ≤ 2 ^ 63 + 1
  · have hfollows (kv : Message × Message) :
        Follows wants (expected kv xs) (Protocol.chunk ({}, {}) false xs) ↔
          Protocol.chunk ({}, {}) false xs = expected kv xs ∧ Stays wants (expected kv xs) :=
      follows_iff (expected_length_le _ kv xs)
    rw [Obeys, chunk_calls wants hcounted]
    constructor
    · intro hobeys
      obtain ⟨kv, calls, heq, hcalls⟩ := hobeys
      cases heq
      obtain ⟨hexpected, hstays⟩ := (hfollows kv).mp hcalls
      exact ⟨(chunk_eq_expected_iff _ xs).mp ⟨kv, hexpected⟩, stays_expected_iff.mp hstays, hcounted⟩
    · intro htame
      obtain ⟨kv, hexpected⟩ := (chunk_eq_expected_iff ({}, {}) xs).mpr htame.errors
      exact ⟨kv, _, rfl, (hfollows kv).mpr ⟨hexpected, stays_expected_iff.mpr htame.accepts⟩⟩
  · refine iff_of_false ?_ fun htame => hcounted htame.counted
    intro hobeys
    obtain ⟨kv, calls, heq, -⟩ := hobeys
    rw [chunk_crash wants (Nat.not_le.mp hcounted)] at heq
    cases heq

/-- Some of the values give some of the pairs, and no more calls. -/
theorem pairsBefore_take (xs : List (Message × Option Err)) (n : Nat) :
    pairsBefore (xs.take n) <+: pairsBefore xs ∧ due (xs.take n) ≤ due xs := by
  induction xs using source_induction generalizing n with
  | nil =>
    rw [List.take_nil]
    exact ⟨List.prefix_rfl, Nat.le_refl _⟩
  | single k =>
    cases n with
    | zero => exact ⟨List.nil_prefix, Nat.zero_le _⟩
    | succ n =>
      rw [List.take_succ_cons, List.take_nil]
      exact ⟨List.prefix_rfl, Nat.le_refl _⟩
  | first k err rest =>
    cases n with
    | zero => exact ⟨List.nil_prefix, Nat.zero_le _⟩
    | succ n => exact ⟨List.prefix_rfl, Nat.le_refl 1⟩
  | second k v err rest =>
    rcases n with _ | _ | n
    · exact ⟨List.nil_prefix, Nat.zero_le _⟩
    · exact ⟨List.nil_prefix, Nat.zero_le _⟩
    · exact ⟨List.prefix_rfl, Nat.le_refl 1⟩
  | pair k v rest ih =>
    rcases n with _ | _ | n
    · exact ⟨List.nil_prefix, Nat.zero_le _⟩
    · exact ⟨List.nil_prefix, Nat.zero_le _⟩
    · obtain ⟨hpairs, hdue⟩ := ih n
      refine ⟨(List.prefix_cons_inj (k, v)).mpr hpairs, ?_⟩
      have hcons (xs : List (Message × Option Err)) : due ((k, none) :: (v, none) :: xs) = due xs + 1 :=
        Nat.add_right_comm ..
      rw [List.take_succ_cons, List.take_succ_cons, hcons, hcons]
      exact Nat.succ_le_succ hdue

theorem TameList.take {wants : List Call → Bool} {xs : List (Message × Option Err)} (h : TameList wants xs) (n : Nat) :
    TameList wants (xs.take n) where
  errors i msg err hi := by
    obtain ⟨hlt, hget⟩ : i < n ∧ xs[i]? = some (msg, some err) := by
      rw [List.getElem?_take] at hi
      split at hi
      · exact ⟨‹_›, hi⟩
      · cases hi
    obtain ⟨heven, hlast⟩ := h.errors i msg err hget
    rw [List.length_take]
    exact ⟨heven, by omega⟩
  accepts k hpos hk := by
    obtain ⟨⟨more, hmore⟩, hdue⟩ := pairsBefore_take xs n
    have haccepts := h.accepts k hpos (hk.trans_le hdue)
    rwa [← hmore, List.take_append_of_le_length (le_pairs_of_lt_due hk)] at haccepts
  counted := (List.length_take_le' n xs).trans h.counted

/-- What is as it should be at the end of a source was so all along. -/
theorem obeys_take_iff (wants : List Call → Bool) (xs : List (Message × Option Err)) :
    (∀ n, Obeys wants (xs.take n)) ↔ Obeys wants xs := by
  constructor
  · intro h
    have hall := h xs.length
    rwa [List.take_length] at hall
  · intro h n
    exact (obeys_iff wants _).mpr (((obeys_iff wants xs).mp h).take n)

/-- `Iterate` yields once: of what it yields `chunk` makes the calls it is to make. -/
theorem obeys_iterate (fl : Floats) (r : Source) (wants : List Call → Bool) :
    Obeys wants [((iterate fl r).msg, (iterate fl r).err)] := by
  have hdue (x : Message × Option Err) : due [x] ≤ 1 := by
    obtain ⟨msg, _ | err⟩ := x
    · exact Nat.zero_le 1
    · exact Nat.le_refl 1
  refine (obeys_iff wants _).mpr ⟨fun i msg err hi => ?_, fun n hpos hn => ?_, ?_⟩
  · cases i with
    | zero => exact ⟨rfl, rfl⟩
    | succ i => cases hi
  · exact absurd (hn.trans_le (hdue _)) (Nat.not_lt.mpr hpos)
  · rw [List.length_singleton]
    decide

/-- A source is tame if it is so after each number of values. -/
theorem tame_iff {wants : List Call → Bool} {xs : Stream'.Seq (Message × Option Err)} :
    (∀ n, TameList wants (xs.take n)) ↔ Tame wants xs := by
  -- the source has ended where a longer beginning of it has
  have hend {k n : Nat} (hk : k < n) (hlen : (xs.take n).length ≤ k) : xs.TerminatedAt k := by
    have hnone : (xs.take n)[k]? = none := List.getElem?_eq_none_iff.mpr hlen
    rwa [Stream'.Seq.getElem?_take, if_pos hk] at hnone
  have hlen {k : Nat} (n : Nat) (h : xs.TerminatedAt k) : (xs.take n).length ≤ k := by
    rw [← List.getElem?_eq_none_iff, Stream'.Seq.getElem?_take, h, ite_self]
  constructor
  · intro h
    refine ⟨fun i msg err hi => ?_, fun n => (h n).accepts, hend (Nat.lt_succ_self _) (h _).counted⟩
    have hget : (xs.take (i + 2))[i]? = some (msg, some err) := by
      rw [Stream'.Seq.getElem?_take, if_pos (by omega), hi]
    obtain ⟨heven, hlast⟩ := (h (i + 2)).errors i msg err hget
    exact ⟨heven, hend (Nat.lt_succ_self _) hlast.ge⟩
  · intro h n
    refine ⟨fun i msg err hget => ?_, h.accepts n, hlen n h.counted⟩
    obtain ⟨hlt, -⟩ := List.getElem?_eq_some_iff.mp hget
    have hi : xs.get? i = some (msg, some err) := by
      rw [Stream'.Seq.getElem?_take] at hget
      split at hget
      · exact hget
      · cases hget
    obtain ⟨heven, hterm⟩ := h.errors i msg err hi
    exact ⟨heven, Nat.le_antisymm hlt (hlen n hterm)⟩

/-- **`chunk` obeys the protocol exactly if its source and its consumer are tame**: after
any number of values of a source, which may have no end. -/
theorem chunk_obeys_iff (wants : List Call → Bool) (xs : Stream'.Seq (Message × Option Err)) :
    (∀ n, Obeys wants (xs.take n)) ↔ Tame wants xs := by
  rw [← tame_iff]
  exact forall_congr' fun n => obeys_iff wants (xs.take n)

/-- **A consumer that wants one pair is called with the next.** -/
theorem not_chunk_obeys :
    ¬∀ (wants : List Call → Bool) (xs : Stream'.Seq (Message × Option Err)) (n : Nat), Obeys wants (xs.take n) := by
  intro h
  have hobeys : Obeys (fun _ => false) (List.replicate 4 (Message.ofInt 1, none)) :=
    h (fun _ => false) (.ofList (List.replicate 4 (Message.ofInt 1, none))) 4
  have hwants := ((obeys_iff _ _).mp hobeys).accepts 1 Nat.one_pos (by decide)
  cases hwants

end AnarchoRedis.Protocol.Chunk
