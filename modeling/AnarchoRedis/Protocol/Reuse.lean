import AnarchoRedis.Protocol.Keys
import AnarchoRedis.Protocol.Bulk
import AnarchoRedis.Protocol.Relay

/-! Using a message more than once.

The body of an element is read from a buffer, and what has been read is gone. So the
keys that `Keys` returns depend on what was done with the message before: encoding it,
parsing it and asking for its keys all read from its elements. What none of them changes
is `Holds`, the shape of the message. The keys are the same after any history exactly
when the strings they are taken from are empty (`repeatable_iff`). -/
namespace AnarchoRedis.Protocol
open Base

/-! ### Outgoing commands -/

/-- The arguments of a command; lengths are Go's. -/
structure CommandLine where
  args : List Bytes
  short : ∀ a ∈ args, a.length < 2 ^ 63
  few : args.length < 2 ^ 63

/-- Where a command message comes from. -/
inductive Origin where
  | outgoing (line : CommandLine)
  | decoded (fl : Floats) (r : Source)

def Origin.message : Origin → Message
  | .outgoing line => newOutgoingCommand line.args
  | .decoded fl r => (decode fl r).1

/-! ### Uses -/

/-- What comes before the children or the body of a message. -/
def writeHeader (m : Message) : Step World :=
  (write [m.kind]).andThen ((write (formatInt m.runLength.toInt)).andThen (write eol))

section
variable (fl : Floats) (e : Encoder)

/-- A bulk string once `Encode` has been at it. -/
def encodedBulk (m : Message) (w : World) : Message :=
  match writeHeader m w with
  | some (_, none, w') => {m with reader := writeBulkReader e m w'}
  | _ => m

def encodedItems (w : World) : List (Message × Option Err) → List (Message × Option Err)
  | [] => []
  | (m, some err) :: rest => (m, some err) :: rest
  | (m, none) :: rest =>
    (encodedBulk e m w, none) ::
      match encode fl e m w with
      | some (_, none, w') => encodedItems w' rest
      | _ => rest

/-- An array of bulk strings once `Encode` has been at it. -/
def encoded (m : Message) (w : World) : Message :=
  match m.seq, writeHeader m w with
  | some (.items xs), some (_, none, w') => {m with seq := some (.items (encodedItems fl e w' xs))}
  | _, _ => m

end

inductive Use where
  /-- `Encode` to any writer, which may fail. -/
  | encode (fl : Floats) (e : Encoder) (out : Writer)
  | cmd (fl : Floats) (u : Letters)
  /-- `Keys` of the command of this name. -/
  | keys (fl : Floats) (name : Bytes)

/-- The command of a message, as `Cmd` makes it but for the name: its arguments are the
elements of the message. -/
def commandOf (name : Bytes) (m : Message) : Command := ⟨name, m.seq, m⟩

/-- The message after a use. A crash leaves it as it was. -/
def Use.after : Use → Message → Message
  | .encode fl e out, m => encoded fl e m ⟨[], out⟩
  | .cmd fl u, m =>
    match Protocol.cmd fl u m [] with
    | some (_, m', _) => m'
    | none => m
  | .keys fl name, m =>
    match (commandOf name m).keys fl [] with
    | some (_, args, _) => {m with seq := args}
    | none => m

/-- What `Keys` returns on the message; nothing for a crash. -/
def keysOf (fl : Floats) (name : Bytes) (m : Message) : Option KeysResult :=
  ((commandOf name m).keys fl []).map Prod.fst

/-- `Keys` returns the same after any uses. To crash before and after them counts as the
same: so it does on the zero message that `Decode` returns. -/
def Repeatable (fl : Floats) (name : Bytes) (m : Message) : Prop :=
  ∀ uses : List Use, keysOf fl name (uses.foldl (fun m u => u.after m) m) = keysOf fl name m

/-! ### What no use changes -/

/-- A bulk string of the length of `a`, whatever has been read of it. -/
structure Element (a : Bytes) (x : Message × Option Err) : Prop where
  err : x.2 = none
  kind : x.1.kind = Kind.bulkString.byte
  runLength : x.1.runLength.toInt = a.length
  reader : ∃ source, x.1.reader = some (.own source)

/-- An array of bulk strings of these lengths. -/
structure Holds (args : List Bytes) (m : Message) : Prop where
  kind : m.kind = Kind.array.byte
  runLength : m.runLength = Int64.ofNat args.length
  seq : ∃ xs, m.seq = some (.items xs) ∧ List.Forall₂ Element args xs

theorem Reader.read_own {s : Source} {n : Nat} {conn conn' : Source} {b : Bytes} {err : Option Err} {r : Reader}
    (h : (Reader.own s).read n conn = (b, err, r, conn')) : ∃ s', r = .own s' ∧ conn' = conn := by
  cases h
  exact ⟨_, rfl, rfl⟩

theorem readFull_own (n : Nat) (s conn : Source) : ∃ s', (readFull n (.own s) conn).2 = (.own s', conn) := by
  generalize hr : Reader.own s = r
  fun_induction readFull n r conn generalizing s with
  | case1 n r conn hn b err r' conn' h =>
    subst hr
    obtain ⟨s', rfl, rfl⟩ := Reader.read_own h
    exact ⟨s', rfl⟩
  | case2 n r conn hn b r' conn' h x ih =>
    subst hr
    obtain ⟨s', rfl, rfl⟩ := Reader.read_own h
    exact ih s' rfl
  | case3 n r conn hn => exact ⟨s, by rw [hr]⟩

theorem bulkReader_own (chunkSize left : Int) (s : Source) (w : World) :
    ∃ s', bulkReader chunkSize left (.own s) w = .own s' := by
  generalize hr : Reader.own s = r
  fun_induction bulkReader chunkSize left r w generalizing s with
  | case1 left r w hpos b err r' conn h =>
    subst hr
    obtain ⟨s', rfl, -⟩ := Reader.read_own h
    exact ⟨s', rfl⟩
  | case2 left r w hpos b r' conn h n err out hwrite =>
    subst hr
    obtain ⟨s', rfl, -⟩ := Reader.read_own h
    exact ⟨s', rfl⟩
  | case3 left r w hpos b r' conn h n out hwrite ih =>
    subst hr
    obtain ⟨s', rfl, -⟩ := Reader.read_own h
    exact ih s' rfl
  | case4 left r w hpos => exact ⟨s, hr.symm⟩

theorem Element.encodedBulk {a : Bytes} {m : Message} (h : Element a (m, none)) (e : Encoder) (w : World) :
    Element a (encodedBulk e m w, none) := by
  unfold Protocol.encodedBulk
  split
  · rename_i w' _
    obtain ⟨s, hs⟩ := h.reader
    obtain ⟨s', hs'⟩ := bulkReader_own e.chunkSize.toInt m.runLength.toInt s w'
    refine ⟨rfl, h.kind, h.runLength, s', ?_⟩
    show writeBulkReader e m w' = _
    rw [writeBulkReader, show m.reader = _ from hs, Option.map_some, hs']
  · exact h

theorem forall₂_encodedItems {args : List Bytes} {xs : List (Message × Option Err)}
    (h : List.Forall₂ Element args xs) (fl : Floats) (e : Encoder) (w : World) :
    List.Forall₂ Element args (encodedItems fl e w xs) := by
  induction h generalizing w with
  | nil => exact .nil
  | @cons a x args xs hx hxs ih =>
    obtain ⟨m, err⟩ := x
    obtain rfl : err = none := hx.err
    rw [encodedItems]
    refine .cons (hx.encodedBulk e w) ?_
    split
    · exact ih _
    · exact hxs

/-- `ReadAll` on a reader of the message's own. -/
theorem readAll_own {m : Message} {n : Nat} {source : Source} (hr : m.reader = some (.own source))
    (hn : m.runLength.toInt = n) (conn : Source) :
    ∃ source', (readFull n (.own source) conn).2 = (.own source', conn) ∧
      m.readAll conn = some ((((readFull n (.own source) conn).1).getD [], none),
        {m with reader := some (.own source')}, conn) := by
  obtain ⟨source', hafter⟩ := readFull_own n source conn
  refine ⟨source', hafter, ?_⟩
  rw [Message.readAll, hn, if_neg (by omega), hr, Int.toNat_natCast]
  dsimp only
  rw [hafter]
  rcases (readFull n (.own source) conn).1 with _ | b
  · rfl
  · rfl

/-- The string that `ReadAll` would return now. -/
def text (x : Message × Option Err) : Bytes := ((x.1.readAll []).map fun y => y.1.1).getD []

theorem Element.readAll {a : Bytes} {m : Message} {err : Option Err} (h : Element a (m, err)) (conn : Source) :
    ∃ m', m.readAll conn = some ((text (m, err), none), m', conn) ∧ Element a (m', err) := by
  obtain ⟨s, hs⟩ := h.reader
  obtain ⟨s₁, -, hnow⟩ := readAll_own hs h.runLength []
  obtain ⟨s₂, -, hread⟩ := readAll_own hs h.runLength conn
  refine ⟨{m with reader := some (.own s₂)}, ?_, h.err, h.kind, h.runLength, s₂, rfl⟩
  rw [hread, text, hnow, Option.map_some, Option.getD_some, readFull_eq, readFull_eq]
  rfl

/-- What is collected are the strings that the elements have now. -/
theorem collect_elements {args : List Bytes} {xs : List (Message × Option Err)} (h : List.Forall₂ Element args xs)
    (more : Nat → Bool) (keys : List Bytes) (conn : Source) :
    ∃ xs', collect more keys conn xs = some ⟨keys ++ (xs.map text).take (visited more keys.length xs), xs', conn⟩ ∧
      List.Forall₂ Element args xs' := by
  induction h generalizing keys with
  | nil => exact ⟨[], by rw [collect, List.map_nil, List.take_nil, List.append_nil], .nil⟩
  | @cons a x args xs hx hxs ih =>
    obtain ⟨m, err⟩ := x
    obtain ⟨m', hread, hm'⟩ := hx.readAll conn
    have hlen : (keys ++ [text (m, err)]).length = keys.length + 1 := List.length_append
    rw [collect, hread, visited]
    dsimp only
    rw [hlen]
    split
    · obtain ⟨xs', hcollect, hxs'⟩ := ih (keys ++ [text (m, err)])
      rw [hlen] at hcollect
      refine ⟨(m', err) :: xs', ?_, .cons hm' hxs'⟩
      rw [hcollect, Option.map_some, List.map_cons, List.take_succ_cons, List.append_assoc, List.singleton_append]
    · exact ⟨(m', err) :: xs, rfl, .cons hm' hxs⟩

/-- A key function on the elements as they are now. -/
theorem run_elements {args : List Bytes} {xs : List (Message × Option Err)} (h : List.Forall₂ Element args xs)
    (fl : Floats) (f : KeysFunc) (size : Int) (conn : Source) :
    ∃ xs', f.run fl (some (.items xs)) size conn = some (f.result (xs.map text) size, some (.items xs'), conn) ∧
      List.Forall₂ Element args xs' := by
  have hrange (more : Nat → Bool) : ∃ xs' conn', rangeKeys fl more (some (.items xs)) conn =
      some (⟨(xs.map text).take (visited more 0 (xs.map text)), none⟩, some (.items xs'), conn') ∧
        List.Forall₂ Element args xs' ∧ conn' = conn := by
    obtain ⟨xs', hcollect, hxs'⟩ := collect_elements h more [] conn
    refine ⟨xs', conn, ?_, hxs', rfl⟩
    rw [rangeKeys, elements, visited_congr more 0 (List.length_map text)]
    simp only [hcollect, Option.map_some, moved, List.nil_append, List.length_nil]
  obtain ⟨xs', conn', hrun, hxs', rfl⟩ :=
    run_result (P := fun xs' conn' => List.Forall₂ Element args xs' ∧ conn' = conn) ⟨h, rfl⟩ hrange f size
  exact ⟨xs', hrun, hxs'⟩

/-! ### One use, and any number -/

section
variable {args : List Bytes} {m : Message}

theorem Holds.keys (h : Holds args m) (fl : Floats) (name : Bytes) :
    ∃ r xs', (commandOf name m).keys fl [] = some (r, some (.items xs'), []) ∧ List.Forall₂ Element args xs' := by
  obtain ⟨xs, hseq, hxs⟩ := h.seq
  rw [Command.keys, commandOf, hseq]
  dsimp only
  split
  · exact ⟨_, xs, rfl, hxs⟩
  · rename_i spec _
    obtain ⟨xs', hrun, hxs'⟩ := run_elements hxs fl spec.keys m.runLength.toInt []
    exact ⟨_, xs', hrun, hxs'⟩

theorem Holds.moved (h : Holds args m) {xs : List (Message × Option Err)} (hxs : List.Forall₂ Element args xs) :
    Holds args {m with seq := some (.items xs)} :=
  ⟨h.kind, h.runLength, xs, rfl, hxs⟩

theorem Holds.cmd (h : Holds args m) (fl : Floats) (u : Letters) :
    ∃ c xs', Protocol.cmd fl u m [] = some (.ok c, {m with seq := some (.items xs')}, []) ∧
      List.Forall₂ Element args xs' := by
  obtain ⟨xs, hseq, hxs⟩ := h.seq
  rw [Protocol.cmd, if_neg (not_not.mpr h.kind), hseq, elements]
  dsimp only
  cases hxs with
  | nil => exact ⟨_, [], rfl, .nil⟩
  | @cons a x args xs hx hxs =>
    obtain ⟨arg, err⟩ := x
    obtain rfl : err = none := hx.err
    obtain ⟨arg', hread, harg'⟩ := hx.readAll []
    rw [cmdLoop_cons xs hx.kind hread, Option.map_some]
    exact ⟨_, (arg', none) :: xs, rfl, .cons harg' hxs⟩

/-- One use keeps the shape. -/
theorem Holds.after (h : Holds args m) (u : Use) : Holds args (u.after m) := by
  cases u with
  | encode fl e out =>
    rw [Use.after, encoded]
    split
    · rename_i xs n w' hseq hheader
      obtain ⟨xs', hseq', hxs⟩ := h.seq
      rw [hseq'] at hseq
      cases hseq
      exact h.moved (forall₂_encodedItems hxs fl e w')
    · exact h
  | cmd fl u =>
    obtain ⟨c, xs', hcmd, hxs'⟩ := h.cmd fl u
    rw [Use.after, hcmd]
    exact h.moved hxs'
  | keys fl name =>
    obtain ⟨r, xs', hkeys, hxs'⟩ := h.keys fl name
    rw [Use.after, hkeys]
    exact h.moved hxs'

/-- So does any sequence of uses. -/
theorem Holds.afterAll (h : Holds args m) (uses : List Use) : Holds args (uses.foldl (fun m u => u.after m) m) := by
  induction uses generalizing m with
  | nil => exact h
  | cons u uses ih => exact ih (h.after u)

end

/-! ### When the keys stay the same -/

/-- The strings that the results of a key function show. -/
def KeysFunc.shown : KeysFunc → List Bytes → List Bytes
  | .noKeysFunc, _ | .oddIndices, _ => []
  | .firstArgKeyFunc, args => args.take 2
  | .allArgs, args => args
  | .firstTwo, args => if args.length < 2 then [] else args.take 2

/-- A command without an entry, or whose keys are taken from empty strings only. -/
def steady (name : Bytes) : Origin → Bool
  | .decoded .. => true
  | .outgoing line =>
    match specification name with
    | none => true
    | some spec => (spec.keys.shown line.args).all List.isEmpty

/-- What `Keys` returns on the message, from the strings its elements have now. -/
theorem keysOf_eq {args : List Bytes} {m : Message} {xs : List (Message × Option Err)} (h : Holds args m)
    (hseq : m.seq = some (.items xs)) (fl : Floats) {name : Bytes} {spec : CommandSpecification}
    (hspec : specification name = some spec) :
    keysOf fl name m = some (spec.keys.result (xs.map text) m.runLength.toInt) := by
  obtain ⟨xs', hseq', hxs⟩ := h.seq
  rw [hseq] at hseq'
  cases hseq'
  obtain ⟨xs', hrun, -⟩ := run_elements hxs fl spec.keys m.runLength.toInt []
  rw [keysOf, commandOf, Command.keys]
  simp only [hspec, hseq, hrun, Option.map_some]

/-- An empty argument reads as the empty string, whatever has been done. -/
theorem text_nil {x : Message × Option Err} (h : Element [] x) : text x = [] := by
  obtain ⟨s, hs⟩ := h.reader
  obtain ⟨s', -, hread⟩ := readAll_own hs h.runLength []
  rw [text, hread, Option.map_some, Option.getD_some, readFull_eq, List.length_nil, if_pos (Nat.zero_le _),
    List.take_zero, Option.getD_some]

theorem texts_take {args : List Bytes} {xs : List (Message × Option Err)} (h : List.Forall₂ Element args xs) (n : Nat)
    (hnil : ∀ a ∈ args.take n, a = []) : (xs.map text).take n = args.take n := by
  induction h generalizing n with
  | nil => rfl
  | @cons a x args xs hx hxs ih =>
    cases n with
    | zero => rfl
    | succ n =>
      rw [List.take_succ_cons] at hnil
      obtain rfl : a = [] := hnil a List.mem_cons_self
      rw [List.map_cons, List.take_succ_cons, List.take_succ_cons, text_nil hx,
        ih n fun b hb => hnil b (List.mem_cons_of_mem _ hb)]

/-- The strings shown are all that matters. -/
theorem result_steady {args : List Bytes} {xs : List (Message × Option Err)} (h : List.Forall₂ Element args xs)
    {f : KeysFunc} (hf : ∀ a ∈ f.shown args, a = []) (size : Int) : f.result (xs.map text) size = f.result args size := by
  have hlen : (xs.map text).length = args.length := by rw [List.length_map, h.length_eq]
  cases f with
  | noKeysFunc | oddIndices => rfl
  | allArgs =>
    have htake := texts_take h args.length (by rw [List.take_length]; exact hf)
    rw [List.take_length, ← hlen, List.take_length] at htake
    rw [KeysFunc.result, KeysFunc.result, htake]
  | firstArgKeyFunc => rw [KeysFunc.result, KeysFunc.result, texts_take h 2 hf]
  | firstTwo =>
    rw [KeysFunc.result, KeysFunc.result, hlen]
    split
    · rfl
    · rename_i htwo
      rw [texts_take h 2 (by rwa [KeysFunc.shown, if_neg htwo] at hf)]

/-! ### A fresh message, and one that has been sent -/

/-- On a writer that does not fail the header is written. -/
theorem writeHeader_plain (m : Message) {w : World} (hw : w.out.faults = []) :
    ∃ n w', writeHeader m w = some (n, none, w') ∧ w'.out.faults = [] := by
  have hheader : Writes (writeHeader m) _ := (writes_write _).andThen ((writes_write _).andThen (writes_write eol))
  exact ⟨_, _, hheader w hw, hw⟩

section
variable {a : Bytes} (h : a.length < 2 ^ 63)
include h

theorem element_newBulkString : Element a (newBulkString a, none) := ⟨rfl, rfl, toInt_ofNat h, _, rfl⟩

theorem text_newBulkString : text (newBulkString a, none) = a := by
  obtain ⟨hplain, hbytes⟩ := plain_newBufferString a
  obtain ⟨s', -, hread⟩ := readAll_own (m := newBulkString a) rfl (toInt_ofNat h) []
  rw [text, hread, Option.map_some, Option.getD_some, readFull_eq, Reader.good, hplain.calm.good, hbytes, if_pos le_rfl,
    List.take_length, Option.getD_some]

/-- Once it has been sent, nothing is left to be read. -/
theorem encodedBulk_newBulkString (e : Encoder) {w : World} (hw : w.out.faults = []) :
    encodedBulk e (newBulkString a) w = {newBulkString a with reader := some (.own [])} := by
  obtain ⟨hplain, hbytes⟩ := plain_newBufferString a
  obtain ⟨n, w', hheader, hw'⟩ := writeHeader_plain (newBulkString a) hw
  obtain ⟨rest, hreader, hrest, hplain'⟩ :=
    bulkReader_full e.chunkSize.toInt hplain (n := a.length) (by rw [hbytes]) hw'
  rw [hbytes, List.drop_length] at hrest
  have hsent : writeBulkReader e (newBulkString a) w' = some (.own []) := by
    rw [writeBulkReader]
    show some (bulkReader e.chunkSize.toInt (Int64.ofNat a.length).toInt (.own (newBufferString a)) w') = _
    rw [toInt_ofNat h, hreader, hplain'.eq_nil hrest]
  rw [encodedBulk, hheader]
  dsimp only
  rw [hsent]

end

/-- What is left of an argument once it has been sent. -/
def sent (a : Bytes) : Message × Option Err := ({newBulkString a with reader := some (.own [])}, none)

theorem encodedItems_fresh (fl : Floats) (e : Encoder) {args : List Bytes} (h : ∀ a ∈ args, a.length < 2 ^ 63)
    {w : World} (hw : w.out.faults = []) :
    encodedItems fl e w (args.map fun a => (newBulkString a, none)) = args.map sent := by
  induction args generalizing w with
  | nil => rfl
  | cons a args ih =>
    have ha := h a List.mem_cons_self
    have hrun : encode fl e (newBulkString a) w = some _ := encode_writes fl e _ _ (built_newBulkString ha) w hw
    rw [List.map_cons, encodedItems, hrun, encodedBulk_newBulkString ha e hw]
    dsimp only
    rw [ih (fun b hb => h b (List.mem_cons_of_mem a hb)) (w := w.emit _) hw, List.map_cons, sent]

theorem text_sent {a : Bytes} (h : a.length < 2 ^ 63) : text (sent a) = [] := by
  obtain ⟨s', -, hread⟩ := readAll_own (m := (sent a).1) rfl (toInt_ofNat h) []
  rw [text, hread, Option.map_some, Option.getD_some, readFull_eq]
  split
  · simp only [Reader.good, Source.good, List.take_nil, Option.getD_some]
  · rfl

namespace CommandLine
variable (line : CommandLine)

theorem seq_eq : (newOutgoingCommand line.args).seq = some (.items (line.args.map fun a => (newBulkString a, none))) := by
  show some (Message.yields (line.args.map newBulkString)) = _
  rw [Message.yields, List.map_map]
  rfl

theorem holds : Holds line.args (newOutgoingCommand line.args) where
  kind := rfl
  runLength := by
    show Int64.ofNat (line.args.map newBulkString).length = _
    rw [List.length_map]
  seq := by
    refine ⟨_, line.seq_eq, ?_⟩
    rw [List.forall₂_map_right_iff, List.forall₂_same]
    exact fun a ha => element_newBulkString (line.short a ha)

theorem texts_fresh : (line.args.map fun a => (newBulkString a, none)).map text = line.args := by
  rw [List.map_map]
  exact (List.map_congr_left fun a ha => text_newBulkString (line.short a ha)).trans (List.map_id line.args)

theorem texts_sent : (line.args.map sent).map text = line.args.map fun _ => [] := by
  rw [List.map_map]
  exact List.map_congr_left fun a ha => text_sent (line.short a ha)

/-- The message once it has been sent to the leader. -/
theorem seq_sent :
    ((Use.encode noFloats {} ⟨[], []⟩).after (newOutgoingCommand line.args)).seq = some (.items (line.args.map sent)) := by
  obtain ⟨n, w', hheader, hw'⟩ := writeHeader_plain (newOutgoingCommand line.args) (w := ⟨[], ⟨[], []⟩⟩) rfl
  rw [Use.after, encoded, line.seq_eq, hheader]
  dsimp only
  rw [encodedItems_fresh noFloats {} line.short hw']

end CommandLine

/-- If empty strings give the same results, the strings shown are empty. -/
theorem shown_nil {f : KeysFunc} {args : List Bytes}
    (h : f.result (args.map fun _ => []) args.length = f.result args args.length) : ∀ a ∈ f.shown args, a = [] := by
  have htake (n : Nat) (heq : (args.map fun _ => ([] : Bytes)).take n = args.take n) : ∀ a ∈ args.take n, a = [] := by
    intro a ha
    rw [← heq, ← List.map_take] at ha
    obtain ⟨_, -, rfl⟩ := List.mem_map.mp ha
    rfl
  cases f with
  | noKeysFunc | oddIndices => exact fun a ha => absurd ha List.not_mem_nil
  | allArgs =>
    intro a ha
    refine htake args.length ?_ a (by rwa [List.take_length])
    rw [show (args.map fun _ => ([] : Bytes)) = args from (KeysResult.mk.inj h).1]
  | firstArgKeyFunc =>
    rw [KeysFunc.result, KeysFunc.result] at h
    split at h
    · rename_i hsize
      obtain rfl : args = [] := List.length_eq_zero_iff.mp (by omega)
      exact fun a ha => absurd ha List.not_mem_nil
    · exact htake 2 (KeysResult.mk.inj h).1
  | firstTwo =>
    rw [KeysFunc.result, KeysFunc.result, List.length_map] at h
    rw [KeysFunc.shown]
    split at h
    · rename_i hlt
      rw [if_pos hlt]
      exact fun a ha => absurd ha List.not_mem_nil
    · rename_i hlt
      rw [if_neg hlt]
      exact htake 2 (KeysResult.mk.inj h).1

/-- A message of `Decode` has nothing that could be used up. -/
theorem decoded_after (fl : Floats) (r : Source) (u : Use) : u.after (decode fl r).1 = (decode fl r).1 := by
  rw [show (decode fl r).1 = {} from (iterate_more fl r).1]
  cases u with
  | encode fl e out => rfl
  | cmd fl u => rfl
  | keys fl name =>
    rw [Use.after, commandOf, Command.keys]
    dsimp only
    rcases specification name with _ | spec
    · rfl
    · cases hf : spec.keys with
      | _ => simp only [hf]; rfl

theorem keysOf_none (fl : Floats) {name : Bytes} (h : specification name = none) (m : Message) :
    keysOf fl name m = some ⟨[], some (invalidCommand (ascii ": " ++ name ++ ascii " not implemented"))⟩ := by
  rw [keysOf, commandOf, Command.keys]
  simp only [h, Option.map_some]

/-- What `Keys` returns on an outgoing command, from the strings its elements have now. -/
theorem keysOf_line {line : CommandLine} {m : Message} {xs : List (Message × Option Err)} (h : Holds line.args m)
    (hseq : m.seq = some (.items xs)) (fl : Floats) {name : Bytes} {spec : CommandSpecification}
    (hspec : specification name = some spec) :
    keysOf fl name m = some (spec.keys.result (xs.map text) line.args.length) := by
  rw [keysOf_eq h hseq fl hspec, h.runLength, toInt_ofNat line.few]

/-- **`Keys` gives the same after any uses of the message exactly when the command has no
entry, or its keys are taken from empty strings only.** -/
theorem repeatable_iff (fl : Floats) (name : Bytes) (o : Origin) :
    Repeatable fl name o.message ↔ steady name o = true := by
  cases o with
  | decoded fl' r =>
    refine iff_of_true (fun uses => ?_) rfl
    induction uses with
    | nil => rfl
    | cons u uses ih =>
      rw [List.foldl_cons, Origin.message, decoded_after]
      exact ih
  | outgoing line =>
    rw [Origin.message, steady]
    rcases hspec : specification name with _ | spec
    · refine iff_of_true (fun uses => ?_) rfl
      rw [keysOf_none fl hspec, keysOf_none fl hspec]
    · have hfresh := keysOf_line line.holds line.seq_eq fl hspec
      rw [line.texts_fresh] at hfresh
      simp only [List.all_eq_true, List.isEmpty_iff]
      constructor
      · intro h
        have hafter := h [.encode noFloats {} ⟨[], []⟩]
        rw [List.foldl_cons, List.foldl_nil, hfresh, keysOf_line (line.holds.after _) line.seq_sent fl hspec,
          line.texts_sent] at hafter
        exact shown_nil (Option.some.inj hafter)
      · intro h uses
        have hholds := line.holds.afterAll uses
        obtain ⟨xs, hseq, hxs⟩ := hholds.seq
        rw [hfresh, keysOf_line hholds hseq fl hspec, result_steady hxs h]

/-- **`Keys` of `GET k` is not repeatable**: once the message has been sent, the keys are
empty strings. -/
theorem not_repeatable : ¬ ∀ (fl : Floats) (name : Bytes) (o : Origin), Repeatable fl name o.message := by
  intro hall
  let line : CommandLine := ⟨[ascii "GET", ascii "k"], by decide, by decide⟩
  have hspec : specification (ascii "GET") = some ⟨.firstArgKeyFunc, ["read", "string", "fast"]⟩ := by decide
  have hfresh := keysOf_line line.holds line.seq_eq noFloats hspec
  have hsent := keysOf_line (line.holds.after (.encode noFloats {} ⟨[], []⟩)) line.seq_sent noFloats hspec
  have hsame := hall noFloats (ascii "GET") (.outgoing line) [.encode noFloats {} ⟨[], []⟩]
  rw [List.foldl_cons, List.foldl_nil, Origin.message, hfresh, hsent, line.texts_fresh, line.texts_sent] at hsame
  exact absurd (KeysResult.mk.inj (Option.some.inj hsame)).1 (by decide)

end AnarchoRedis.Protocol
