import AnarchoRedis.Protocol.Cmd
import AnarchoRedis.Protocol.Commands

/-! The keys of a command.

A key function ranges over the arguments with a callback that reads each of them and
says whether to go on. The error that comes with an element is overwritten by that of
`ReadAll`, which is none, and the error that is returned at the end is another variable:
what goes wrong with an element that is read is not seen (`honest_iff`). The one that
should take the first argument goes on until it has more than one, and the one for pairs
collects nothing (`exact_iff`). -/
namespace AnarchoRedis.Protocol
open Base

/-! ### Key functions -/

/-- What a key function returns. -/
structure KeysResult where
  keys : List Bytes
  err : Option Err

/-- The strings read so far, the elements with their readers as they are then, and the
connection. -/
structure Collected where
  keys : List Bytes
  elements : List (Message × Option Err)
  conn : Source

/-- Ranging with the callback: `more` says whether it goes on with so many keys. -/
def collect (more : Nat → Bool) (keys : List Bytes) (conn : Source) :
    List (Message × Option Err) → Option Collected
  | [] => some ⟨keys, [], conn⟩
  | (m, err) :: rest =>
    match m.readAll conn with
    | none => none
    | some ((_, some _), m, conn) => some ⟨keys, (m, err) :: rest, conn⟩
    | some ((all, none), m, conn) =>
      let keys := keys ++ [all]
      if more keys.length then
        (collect more keys conn rest).map fun c => {c with elements := (m, err) :: c.elements}
      else some ⟨keys, (m, err) :: rest, conn⟩

/-- What a key function does: its results, and the arguments and the connection after
it. -/
abbrev KeysStep := Option (KeysResult × Option (Feed Message) × Source)

section
variable (fl : Floats)

/-- Ranging over the arguments, from no keys; the error stays as it is declared. -/
def rangeKeys (more : Nat → Bool) (args : Option (Feed Message)) (conn : Source) : KeysStep :=
  match elements fl conn args with
  | none => none
  | some (xs, conn) => (collect more [] conn xs).map fun c => (⟨c.keys, none⟩, moved args c.elements, c.conn)

def firstN (n : Int) (args : Option (Feed Message)) (size : Int) (conn : Source) : KeysStep :=
  if size < n then
    some (⟨[], some (invalidCommand (ascii "; expected at least " ++ formatInt n ++
      ascii " argument for firstArgKey"))⟩, args, conn)
  else rangeKeys fl (fun k => (k : Int) ≤ n) args conn

def firstArgKeyFunc : Option (Feed Message) → Int → Source → KeysStep := firstN fl 1

/-- The callback reads an argument and keeps nothing of it. It has no return at its
end; it is taken to go on. -/
def oddIndices (args : Option (Feed Message)) (size : Int) (conn : Source) : KeysStep :=
  if size.tmod 2 = 1 then
    some (⟨[], some (invalidCommand (ascii ": expected an even number of arguments"))⟩, args, conn)
  else (rangeKeys fl (fun _ => true) args conn).map fun x => (⟨[], none⟩, x.2)

def allArgs (args : Option (Feed Message)) (_size : Int) (conn : Source) : KeysStep :=
  rangeKeys fl (fun _ => true) args conn

def noKeysFunc (args : Option (Feed Message)) (_size : Int) (conn : Source) : KeysStep :=
  some (⟨[], none⟩, args, conn)

/-- The literal of `LCS`, which takes the strings of the arguments. -/
def firstTwo (args : Option (Feed Message)) (_size : Int) (conn : Source) : KeysStep :=
  (rangeKeys fl (fun _ => true) args conn).map fun x =>
    if x.1.keys.length < 2 then (⟨[], some (invalidCommand (ascii ": expected at least two arguments"))⟩, x.2)
    else (⟨x.1.keys.take 2, none⟩, x.2)

def KeysFunc.run : KeysFunc → Option (Feed Message) → Int → Source → KeysStep
  | .noKeysFunc => Protocol.noKeysFunc
  | .firstArgKeyFunc => Protocol.firstArgKeyFunc fl
  | .oddIndices => Protocol.oddIndices fl
  | .allArgs => Protocol.allArgs fl
  | .firstTwo => Protocol.firstTwo fl

/-- `Keys`. -/
def Command.keys (c : Command) (conn : Source) : KeysStep :=
  match specification c.name with
  | none => some (⟨[], some (invalidCommand (ascii ": " ++ c.name ++ ascii " not implemented"))⟩, c.args, conn)
  | some spec => spec.keys.run fl c.args c.message.runLength.toInt conn

end

/-! ### What is collected -/

/-- How many elements are read, with so many keys before. -/
def visited {α : Type} (more : Nat → Bool) (k : Nat) : List α → Nat
  | [] => 0
  | _ :: rest => if more (k + 1) then visited more (k + 1) rest + 1 else 1

/-- Only the number of elements matters. -/
theorem visited_congr {α β : Type} (more : Nat → Bool) (k : Nat) {xs : List α} {ys : List β}
    (h : xs.length = ys.length) : visited more k xs = visited more k ys := by
  induction xs generalizing k ys with
  | nil => rw [List.length_eq_zero_iff.mp h.symm, visited, visited]
  | cons x xs ih =>
    obtain ⟨y, ys, rfl⟩ := List.exists_cons_of_length_eq_add_one h.symm
    rw [visited, visited, ih _ (Nat.succ.inj h)]

theorem visited_all {α : Type} (k : Nat) (xs : List α) : visited (fun _ => true) k xs = xs.length := by
  induction xs generalizing k with
  | nil => rfl
  | cons x xs ih => rw [visited, if_pos rfl, ih, List.length_cons]

/-- Going on while there are at most `n` keys reads one more than `n`. -/
theorem take_visited {α : Type} {n : Int} {k : Nat} (hk : k ≤ n.toNat) (xs : List α) :
    xs.take (visited (fun j => (j : Int) ≤ n) k xs) = xs.take (n.toNat + 1 - k) := by
  induction xs generalizing k with
  | nil => rw [List.take_nil, List.take_nil]
  | cons x xs ih =>
    rw [visited]
    split
    · rename_i hmore
      have hle : k + 1 ≤ n.toNat := by
        have := of_decide_eq_true hmore
        omega
      rw [show n.toNat + 1 - k = (n.toNat + 1 - (k + 1)) + 1 by omega, List.take_succ_cons, List.take_succ_cons, ih hle]
    · rename_i hmore
      have hlt := of_decide_eq_false (Bool.not_eq_true _ ▸ hmore)
      rw [show n.toNat + 1 - k = 1 by omega]

section
variable {more : Nat → Bool} {keys bs : List Bytes} {conn : Source} {xs : List (Message × Option Err)} {c : Collected}

theorem collect_length (h : collect more keys conn xs = some c) :
    c.keys.length = keys.length + visited more keys.length xs := by
  induction xs generalizing keys conn c with
  | nil =>
    cases h
    rfl
  | cons x xs ih =>
    rw [collect] at h
    split at h
    · cases h
    · rename_i hread
      cases Message.readAll_noError hread
    · rw [visited]
      have hlen (all : Bytes) : (keys ++ [all]).length = keys.length + 1 := List.length_append
      dsimp only at h
      rw [hlen] at h
      split at h
      · rename_i hmore
        obtain ⟨c, hrest, rfl⟩ := Option.map_eq_some_iff.mp h
        rw [if_pos hmore, ih hrest, hlen]
        omega
      · rename_i hmore
        cases h
        rw [if_neg hmore, hlen]

/-- When the elements that are read have their whole bodies, those are collected. -/
theorem collect_whole (h : bodies conn (xs.take (visited more keys.length xs)) = some bs) :
    ∃ c, collect more keys conn xs = some c ∧ c.keys = keys ++ bs := by
  induction xs generalizing keys conn bs with
  | nil =>
    cases h
    exact ⟨_, rfl, (List.append_nil keys).symm⟩
  | cons x xs ih =>
    obtain ⟨m, err⟩ := x
    have hpos : ∃ k, visited more keys.length ((m, err) :: xs) = k + 1 := by
      rw [visited]
      split
      · exact ⟨_, rfl⟩
      · exact ⟨0, rfl⟩
    obtain ⟨k, hk⟩ := hpos
    rw [hk, List.take_succ_cons] at h
    cases err with
    | some err => cases h
    | none =>
      rw [bodies] at h
      split at h
      · cases h
      · rename_i b hbody
        obtain ⟨bs, hrest, rfl⟩ := Option.map_eq_some_iff.mp h
        obtain ⟨m', hread⟩ := Message.readAll_eq hbody
        have hlen : (keys ++ [b]).length = keys.length + 1 := List.length_append
        rw [visited, ← hlen] at hk
        rw [collect, hread]
        dsimp only
        split at hk
        · rename_i hmore
          rw [← Nat.add_right_cancel hk] at hrest
          obtain ⟨c, hcollect, hkeys⟩ := ih hrest
          rw [if_pos hmore, hcollect]
          exact ⟨_, rfl, by rw [hkeys, List.append_assoc, List.singleton_append]⟩
        · rename_i hmore
          obtain rfl : k = 0 := by omega
          cases hrest
          rw [if_neg hmore]
          exact ⟨_, rfl, rfl⟩

/-- When the elements that are read have their whole bodies, those are the keys. -/
theorem rangeKeys_whole (fl : Floats) (h : bodies conn (xs.take (visited more 0 xs)) = some bs) :
    ∃ xs' conn', rangeKeys fl more (some (.items xs)) conn = some (⟨bs, none⟩, some (.items xs'), conn') := by
  obtain ⟨c, hcollect, hkeys⟩ : ∃ c, collect more [] conn xs = some c ∧ c.keys = [] ++ bs := collect_whole h
  refine ⟨c.elements, c.conn, ?_⟩
  simp only [rangeKeys, elements, hcollect, Option.map_some, moved, hkeys, List.nil_append]

end

/-! ### Failures -/

/-- The function returns an error, or strings that are the whole bodies of the first
elements, which come without an error. It does not crash. -/
def Honest (conn : Source) (xs : List (Message × Option Err)) (step : KeysStep) : Prop :=
  ∃ r args conn', step = some (r, args, conn') ∧
    (r.err ≠ none ∨ bodies conn (xs.take r.keys.length) = some r.keys)

theorem honest_rangeKeys (fl : Floats) (more : Nat → Bool) (xs : List (Message × Option Err)) (conn : Source) :
    Honest conn xs (rangeKeys fl more (some (.items xs)) conn) ↔
      (bodies conn (xs.take (visited more 0 xs))).isSome = true := by
  constructor
  · rintro ⟨r, args, conn', hstep, hr⟩
    rw [rangeKeys, elements] at hstep
    obtain ⟨c, hcollect, hc⟩ := Option.map_eq_some_iff.mp hstep
    cases hc
    have hlen : c.keys.length = visited more 0 xs := by
      rw [collect_length hcollect, List.length_nil, Nat.zero_add]
    rcases hr with hr | hr
    · exact absurd rfl hr
    · rw [← hlen, hr, Option.isSome_some]
  · intro h
    obtain ⟨bs, hbs⟩ := Option.isSome_iff_exists.mp h
    obtain ⟨xs', conn', hrange⟩ := rangeKeys_whole fl hbs
    refine ⟨_, _, _, hrange, .inr ?_⟩
    rw [bodies_length hbs, List.length_take, ← List.take_eq_take_min, hbs]

/-- **Failures are hidden unless there are none**: among all the elements for `allArgs`,
and among the first `n + 1` for `firstN n`, if it gets to reading any. -/
theorem honest_iff (fl : Floats) (xs : List (Message × Option Err)) (size : Int) (conn : Source) :
    (Honest conn xs (allArgs fl (some (.items xs)) size conn) ↔ (bodies conn xs).isSome = true) ∧
    ∀ n : Int, Honest conn xs (firstN fl n (some (.items xs)) size conn) ↔
      size < n ∨ (bodies conn (xs.take (n.toNat + 1))).isSome = true := by
  constructor
  · rw [allArgs, honest_rangeKeys, visited_all, List.take_length]
  · intro n
    rw [firstN]
    split
    · rename_i hsize
      exact iff_of_true ⟨_, _, _, rfl, .inl (Option.some_ne_none _)⟩ (.inl hsize)
    · rename_i hsize
      rw [honest_rangeKeys, take_visited (Nat.zero_le _), Nat.sub_zero, or_iff_right hsize]

/-- **A failure is hidden**: of a body that ends early there remains the empty string. -/
theorem not_honest : ¬ ∀ (fl : Floats) (xs : List (Message × Option Err)) (size : Int) (conn : Source),
    Honest conn xs (allArgs fl (some (.items xs)) size conn) := by
  intro hall
  have h := hall noFloats [(.ofBulkString [⟨ascii "k", none⟩] 3, none)] 1 []
  rw [allArgs, honest_rangeKeys, visited_all] at h
  exact absurd h (by decide)

/-! ### What a key function returns -/

/-- The results of a key function on arguments that read as these strings. -/
def KeysFunc.result : KeysFunc → List Bytes → Int → KeysResult
  | .noKeysFunc, _, _ => ⟨[], none⟩
  | .firstArgKeyFunc, args, size =>
    if size < 1 then
      ⟨[], some (invalidCommand (ascii "; expected at least " ++ formatInt 1 ++ ascii " argument for firstArgKey"))⟩
    else ⟨args.take 2, none⟩
  | .oddIndices, _, size =>
    if size.tmod 2 = 1 then ⟨[], some (invalidCommand (ascii ": expected an even number of arguments"))⟩ else ⟨[], none⟩
  | .allArgs, args, _ => ⟨args, none⟩
  | .firstTwo, args, _ =>
    if args.length < 2 then ⟨[], some (invalidCommand (ascii ": expected at least two arguments"))⟩
    else ⟨args.take 2, none⟩

/-- A key function on elements that are read as these strings, when ranging over them
keeps `P` of the elements and of the connection. -/
theorem run_result {fl : Floats} {P : List (Message × Option Err) → Source → Prop} {xs : List (Message × Option Err)}
    {strs : List Bytes} {conn : Source} (h : P xs conn)
    (hrange : ∀ more, ∃ xs' conn', rangeKeys fl more (some (.items xs)) conn =
      some (⟨strs.take (visited more 0 strs), none⟩, some (.items xs'), conn') ∧ P xs' conn')
    (f : KeysFunc) (size : Int) :
    ∃ xs' conn', f.run fl (some (.items xs)) size conn = some (f.result strs size, some (.items xs'), conn') ∧
      P xs' conn' := by
  obtain ⟨xs', conn', hall, hP⟩ := hrange fun _ => true
  rw [visited_all, List.take_length] at hall
  cases f with
  | noKeysFunc => exact ⟨xs, conn, rfl, h⟩
  | allArgs => exact ⟨xs', conn', hall, hP⟩
  | firstArgKeyFunc =>
    rw [KeysFunc.run, firstArgKeyFunc, firstN, KeysFunc.result]
    split
    · exact ⟨xs, conn, rfl, h⟩
    · obtain ⟨xs', conn', hfirst, hP⟩ := hrange fun k => (k : Int) ≤ 1
      rw [take_visited (Nat.zero_le _)] at hfirst
      exact ⟨xs', conn', hfirst, hP⟩
  | oddIndices =>
    rw [KeysFunc.run, oddIndices, KeysFunc.result]
    split
    · exact ⟨xs, conn, rfl, h⟩
    · exact ⟨xs', conn', by rw [hall, Option.map_some], hP⟩
  | firstTwo =>
    rw [KeysFunc.run, firstTwo, hall, Option.map_some, KeysFunc.result]
    refine ⟨xs', conn', ?_, hP⟩
    split
    · rfl
    · rfl

/-! ### The keys a command touches -/

/-- How the keys of a command lie among its arguments, by its name: the first argument
unless something else is said. -/
def keyShape (name : Bytes) : KeysFunc :=
  if ["SELECT", "FLUSHALL"].any (ascii · == name) then .noKeysFunc
  else if ["UNLINK", "MGET"].any (ascii · == name) then .allArgs
  else if ["MSET", "MSETNX"].any (ascii · == name) then .oddIndices
  else if ascii "LCS" == name then .firstTwo
  else .firstArgKeyFunc

/-- The elements at the positions 0, 2, 4 and so on. -/
def everyOther {α : Type} : List α → List α
  | [] => []
  | [a] => [a]
  | a :: _ :: rest => a :: everyOther rest

/-- The keys among the arguments. -/
def KeysFunc.touched : KeysFunc → List Bytes → List Bytes
  | .noKeysFunc, _ => []
  | .firstArgKeyFunc, args => args.take 1
  | .oddIndices, args => everyOther args
  | .allArgs, args => args
  | .firstTwo, args => args.take 2

/-- What every list of arguments that a command takes meets. -/
def KeysFunc.takes : KeysFunc → List Bytes → Bool
  | .noKeysFunc, _ | .allArgs, _ => true
  | .firstArgKeyFunc, args => !args.isEmpty
  | .oddIndices, args => !args.isEmpty && args.length % 2 == 0
  | .firstTwo, args => 2 ≤ args.length

theorem specification_shape {name : Bytes} {spec : CommandSpecification} (h : specification name = some spec) :
    spec.keys = keyShape name := by
  have htable : ∀ entry ∈ cmdSpec, entry.2.keys = keyShape (ascii entry.1) := by decide
  obtain ⟨entry, hfind, rfl⟩ := Option.map_eq_some_iff.mp h
  have hname := List.find?_some hfind
  rw [← eq_of_beq hname]
  exact htable entry (List.mem_of_find?_eq_some hfind)

/-- Strings built into messages are read back whole. -/
theorem bodies_built {args : List Bytes} {ms : List Message} (conn : Source)
    (h : BuiltSeq (args.map (.bulk .string)) ms) : bodies conn (ms.map fun m => (m, none)) = some args := by
  induction args generalizing ms conn with
  | nil =>
    rw [List.map_nil, BuiltSeq, BuiltSeqWith] at h
    subst h
    rfl
  | cons a args ih =>
    rw [List.map_cons, BuiltSeq, BuiltSeqWith] at h
    obtain ⟨m, rest, hm, hrest, rfl⟩ := h
    rw [BuiltWith] at hm
    obtain ⟨source, n, hd, rfl⟩ := hm
    have hlen := hd.length
    have hbody : (BulkKind.string.message source n).body conn = some a := by
      show (if n.toInt < 0 then none else if n.toInt.toNat ≤ source.good.length then
        some (source.good.take n.toInt.toNat) else none) = some a
      rw [hd.calm.good, hd.bytes, if_neg (by omega), if_pos (by omega), List.take_of_length_le (by omega)]
    rw [List.map_cons, bodies, hbody]
    simp only [ih _ hrest, Option.map_some]

section
variable (fl : Floats) {args : List Bytes} {ms : List Message} (conn : Source)

theorem rangeKeys_built (hbuilt : BuiltSeq (args.map (.bulk .string)) ms) (more : Nat → Bool) :
    ∃ xs' conn', rangeKeys fl more (some (Message.yields ms)) conn =
      some (⟨args.take (visited more 0 args), none⟩, some (.items xs'), conn') := by
  have hlen : (ms.map fun m => (m, (none : Option Err))).length = args.length := by
    rw [List.length_map, hbuilt.length, List.length_map]
  refine rangeKeys_whole fl ?_
  rw [visited_congr more 0 hlen]
  exact bodies_take (bodies_built conn hbuilt) _

/-- `Keys` returns exactly these, and no error. -/
def Returned (c : Command) (conn : Source) (keys : List Bytes) : Prop :=
  ∃ args conn', c.keys fl conn = some (⟨keys, none⟩, args, conn')

theorem returned_iff {fl : Floats} {c : Command} {conn conn' : Source} {r : KeysResult} {x : Option (Feed Message)}
    {keys : List Bytes} (h : c.keys fl conn = some (r, x, conn')) :
    Returned fl c conn keys ↔ r.keys = keys ∧ r.err = none := by
  unfold Returned
  rw [h]
  constructor
  · rintro ⟨args, conn', heq⟩
    cases heq
    exact ⟨rfl, rfl⟩
  · rintro ⟨hkeys, herr⟩
    refine ⟨x, conn', ?_⟩
    rw [← hkeys, ← herr]

theorem BuiltSeq.tail {a0 : Bytes} {m : Message} (h : BuiltSeq ((a0 :: args).map (.bulk .string)) (m :: ms)) :
    BuiltSeq (args.map (.bulk .string)) ms := by
  rw [List.map_cons, BuiltSeq, BuiltSeqWith] at h
  obtain ⟨m', rest, -, hrest, heq⟩ := h
  cases heq
  exact hrest

/-- `Keys` on the arguments after the name. The run length counts the name too. -/
theorem keys_run {a0 name : Bytes} {m : Message} (hname : (specification name).isSome = true)
    (hbuilt : BuiltSeq ((a0 :: args).map (.bulk .string)) (m :: ms)) (hfew : args.length + 1 < 2 ^ 63) :
    Command.keys fl ⟨name, some (Message.yields ms), .ofArray (m :: ms)⟩ conn =
      (keyShape name).run fl (some (Message.yields ms)) (args.length + 1) conn := by
  obtain ⟨spec, hspec⟩ := Option.isSome_iff_exists.mp hname
  have hsize : (Message.ofArray (m :: ms)).runLength.toInt = args.length + 1 := by
    have hlen := hbuilt.length
    rw [List.length_map] at hlen
    show (Int64.ofNat (m :: ms).length).toInt = _
    rw [hlen, List.length_cons, toInt_ofNat hfew, Nat.cast_succ]
  simp only [Command.keys, hspec, specification_shape hspec, hsize]

/-- Its results are those on the strings after the name. -/
theorem keys_built {a0 name : Bytes} {m : Message} (hname : (specification name).isSome = true)
    (hbuilt : BuiltSeq ((a0 :: args).map (.bulk .string)) (m :: ms)) (hfew : args.length + 1 < 2 ^ 63) :
    ∃ xs' conn', Command.keys fl ⟨name, some (Message.yields ms), .ofArray (m :: ms)⟩ conn =
      some ((keyShape name).result args (args.length + 1), some (.items xs'), conn') := by
  have hrange (more : Nat → Bool) : ∃ xs' conn', rangeKeys fl more (some (Message.yields ms)) conn =
      some (⟨args.take (visited more 0 args), none⟩, some (.items xs'), conn') ∧ True := by
    obtain ⟨xs', conn', h⟩ := rangeKeys_built fl conn hbuilt.tail more
    exact ⟨xs', conn', h, trivial⟩
  obtain ⟨xs', conn', hrun, -⟩ :=
    run_result (P := fun _ _ => True) trivial hrange (keyShape name) (args.length + 1)
  exact ⟨xs', conn', (keys_run fl conn hname hbuilt hfew).trans hrun⟩

/-- Which key functions give the keys among the arguments, when the size counts the name
too. -/
theorem result_touched_iff {f : KeysFunc} {args : List Bytes} (htakes : f.takes args = true) :
    ((f.result args (args.length + 1)).keys = f.touched args ∧ (f.result args (args.length + 1)).err = none) ↔
      f ≠ .oddIndices ∧ (f = .firstArgKeyFunc → args.length = 1) := by
  cases f with
  | noKeysFunc | allArgs => exact iff_of_true ⟨rfl, rfl⟩ ⟨by simp, by simp⟩
  | firstTwo =>
    have htwo : ¬ args.length < 2 := Nat.not_lt.mpr (of_decide_eq_true htakes)
    rw [KeysFunc.result, if_neg htwo]
    exact iff_of_true ⟨rfl, rfl⟩ ⟨by simp, by simp⟩
  | oddIndices =>
    have hodd : (args.length + 1 : Int).tmod 2 = 1 := by
      have heven : args.length % 2 = 0 := by simpa using (Bool.and_eq_true_iff.mp htakes).2
      rw [Int.tmod_eq_emod_of_nonneg (by omega)]
      omega
    rw [KeysFunc.result, if_pos hodd]
    exact iff_of_false (fun h => Option.some_ne_none _ h.2) fun h => h.1 rfl
  | firstArgKeyFunc =>
    have hsome : ¬ (args.length + 1 : Int) < 1 := by omega
    have hpos : 0 < args.length := List.length_pos_iff.mpr (by simpa [KeysFunc.takes] using htakes)
    rw [KeysFunc.result, if_neg hsome]
    constructor
    · rintro ⟨htake, -⟩
      refine ⟨by simp, fun _ => ?_⟩
      have hlen := congrArg List.length htake
      simp only [KeysFunc.touched, List.length_take] at hlen
      omega
    · rintro ⟨-, hone⟩
      refine ⟨?_, rfl⟩
      have hlen := hone rfl
      rw [KeysFunc.touched, List.take_of_length_le (by omega), List.take_of_length_le (by omega)]

/-- **`Keys` returns the keys that the command touches exactly when it is not for pairs
and, if it has a single key, has no other argument.** -/
theorem exact_iff {a0 name : Bytes} {m : Message} (hname : (specification name).isSome = true)
    (htakes : (keyShape name).takes args = true) (hbuilt : BuiltSeq ((a0 :: args).map (.bulk .string)) (m :: ms))
    (hfew : args.length + 1 < 2 ^ 63) :
    Returned fl ⟨name, some (Message.yields ms), .ofArray (m :: ms)⟩ conn ((keyShape name).touched args) ↔
      keyShape name ≠ .oddIndices ∧ (keyShape name = .firstArgKeyFunc → args.length = 1) := by
  obtain ⟨xs', conn', hkeys⟩ := keys_built fl conn hname hbuilt hfew
  rw [returned_iff hkeys]
  exact result_touched_iff htakes

end

/-- `GET k` has the key `k`. -/
theorem exact_iff_get :
    Returned noFloats ⟨ascii "GET", some (Message.yields [newBulkString (ascii "k")]), getMessage⟩ [] [ascii "k"] := by
  have hbuilt : BuiltSeq ((ascii "GET" :: [ascii "k"]).map (.bulk .string))
      [newBulkString (ascii "GET"), newBulkString (ascii "k")] := builtSeq_newBulkString (by decide)
  exact (exact_iff noFloats [] (by decide) (by decide) hbuilt (by decide)).mpr ⟨by decide, by decide⟩

/-- **Of `SET k v` the value is taken for a key too.** -/
theorem not_exact : ¬ ∀ (fl : Floats) (a0 name : Bytes) (args : List Bytes) (m : Message) (ms : List Message)
    (conn : Source), (specification name).isSome = true → (keyShape name).takes args = true →
    BuiltSeq ((a0 :: args).map (.bulk .string)) (m :: ms) → args.length + 1 < 2 ^ 63 →
    Returned fl ⟨name, some (Message.yields ms), .ofArray (m :: ms)⟩ conn ((keyShape name).touched args) := by
  intro hall
  have hbuilt : BuiltSeq ((ascii "SET" :: [ascii "k", ascii "v"]).map (.bulk .string))
      [newBulkString (ascii "SET"), newBulkString (ascii "k"), newBulkString (ascii "v")] :=
    builtSeq_newBulkString (by decide)
  have hname : (specification (ascii "SET")).isSome = true := by decide
  obtain ⟨xs', conn', hkeys⟩ := keys_built noFloats [] hname hbuilt (by decide)
  have h := hall noFloats _ _ _ _ _ [] hname (by decide) hbuilt (by decide)
  rw [returned_iff hkeys] at h
  exact absurd h.1 (by decide)

end AnarchoRedis.Protocol
