import AnarchoRedis.Base.Buffered
import AnarchoRedis.Protocol.Trace
import AnarchoRedis.Protocol.Wire

/-! Messages on their way through a connection.

`Write` of a connection has `Encode` make its calls on a `bufio.Writer`, which may pass
bytes on in the middle of a message, take part of a message, or fail at any time; `Flush`
passes on the rest. Whatever happens, the bytes that have reached the other side are the
beginning of the messages in the order of the writes. As no beginning of a message is a
message, every message that can be read from them is one that was written, none is
missing before it, and after a `Flush` without an error none is missing at all
(`arrives_in_order`).

The messages are those of `Built`: of any kind but errors, which `Encode` begins and does
not write, and doubles, and with bodies whose readers deliver exactly the run length and
return no bytes together with `io.EOF`. -/
namespace AnarchoRedis.Protocol
open Base

/-- The bytes of messages one after the other. -/
def wires (vs : List Value) : Bytes := (vs.map wire).flatten

theorem wires_concat (vs : List Value) (v : Value) : wires (vs ++ [v]) = wires vs ++ wire v := by
  simp [wires]

/-- What begins with whole messages begins with those messages. -/
theorem prefix_of_wires {vs ws : List Value} (h : wires ws <+: wires vs) : ws <+: vs := by
  induction ws generalizing vs with
  | nil => exact List.nil_prefix
  | cons w ws ih =>
    obtain ⟨rest, hrest⟩ := h
    cases vs with
    | nil => cases hrest
    | cons v vs =>
      have hsplit : wire w ++ (wires ws ++ rest) = wire v ++ wires vs := by
        rw [← List.append_assoc]
        exact hrest
      obtain ⟨rfl, htail⟩ := wire_unique hsplit
      exact List.cons_prefix_cons.mpr ⟨rfl, ih ⟨rest, htail⟩⟩

section
variable {fl : Floats} {e : Encoder}

/-- The calls that encoding a built message makes are its bytes, in pieces. -/
theorem Sends.flatten {v : Value} {m : Message} {conn conn' : Source} {calls : List Bytes} {fin : Option (Option Err)}
    (h : Sends (encode fl e m) conn calls fin conn') (hm : Built v m) : calls.flatten = wire v := by
  have hplain := h.finished (Writer.deliver_plain [] calls)
  have hwrites : encode fl e m ⟨conn, ⟨[], []⟩⟩ = some _ := encode_writes fl e v m hm ⟨conn, ⟨[], []⟩⟩ rfl
  rw [hwrites] at hplain
  cases fin with
  | none => cases hplain
  | some err =>
    simp only [Option.map_some, Option.some.injEq, Prod.mk.injEq, World.emit, World.mk.injEq, Writer.mk.injEq] at hplain
    exact hplain.2.2.2.1.symm

/-- A connection over a network that fails as given, after writes of messages that say
`vs` and flushes in any order, whether they failed or not. -/
inductive Writing (fl : Floats) (e : Encoder) (faults : List (Option (Nat × Err))) : List Value → Buffered → Prop where
  | new : Writing fl e faults [] (.new ⟨[], faults⟩)
  /-- `Encode` makes its calls until one fails. -/
  | write {vs : List Value} {b : Buffered} {v : Value} {m : Message} {conn conn' : Source} {calls : List Bytes}
      {fin : Option (Option Err)} : Writing fl e faults vs b → Built v m → Sends (encode fl e m) conn calls fin conn' →
      Writing fl e faults (vs ++ [v]) (b.deliver calls).2.2
  | flush {vs : List Value} {b : Buffered} : Writing fl e faults vs b → Writing fl e faults vs b.flush

/-- The writer has taken the beginning of the messages, and all of them if it has not
failed. -/
structure Took (vs : List Value) (b : Buffered) : Prop where
  front : b.accepted <+: wires vs
  whole : b.err = none → b.accepted = wires vs

theorem Took.write {vs : List Value} {b : Buffered} {v : Value} {calls : List Bytes} (h : Took vs b)
    (hcalls : calls.flatten = wire v) : Took (vs ++ [v]) (b.deliver calls).2.2 := by
  cases herr : b.err with
  | some err =>
    -- The writer has failed before: nothing is added.
    rw [b.deliver_stuck herr]
    refine ⟨?_, fun hnone => ?_⟩
    · rw [wires_concat]
      exact h.front.trans (List.prefix_append _ _)
    · rw [herr] at hnone
      cases hnone
  | none =>
    obtain ⟨taken, haccepted, hfront, hall⟩ := b.deliver_accepts calls
    rw [h.whole herr] at haccepted
    rw [hcalls] at hfront hall
    refine ⟨?_, fun hnone => ?_⟩
    · rw [haccepted, wires_concat]
      exact (List.prefix_append_right_inj _).mpr hfront
    · rw [haccepted, wires_concat, hall (Buffered.deliver_err hnone)]

theorem Took.flush {vs : List Value} {b : Buffered} (h : Took vs b) : Took vs b.flush where
  front := by
    rw [b.flush_accepted]
    exact h.front
  whole hnone := by
    rw [b.flush_accepted]
    apply h.whole
    by_contra herr
    rw [Buffered.flush, if_pos (.inl herr)] at hnone
    exact herr hnone

theorem took {faults : List (Option (Nat × Err))} {vs : List Value} {b : Buffered}
    (h : Writing fl e faults vs b) : Took vs b := by
  induction h with
  | new => exact ⟨List.nil_prefix, fun _ => rfl⟩
  | write _ hm hsends ih => exact ih.write (hsends.flatten hm)
  | flush _ ih => exact ih.flush

/-- **What arrives is what was written, in order.** The bytes that have reached the other
side are the beginning of the messages; messages that can be read from them are the first
that were written; and a flush that returns without an error has passed on all. -/
theorem arrives_in_order {faults : List (Option (Nat × Err))} {vs : List Value} {b : Buffered}
    (h : Writing fl e faults vs b) :
    b.wr.out <+: wires vs ∧ (∀ ws, wires ws <+: b.wr.out → ws <+: vs) ∧
      (b.flush.err = none → b.flush.wr.out = wires vs) := by
  have htook := took h
  have hsent : b.wr.out <+: wires vs := (List.prefix_append _ _).trans htook.front
  refine ⟨hsent, fun ws hws => prefix_of_wires (hws.trans hsent), fun hnone => ?_⟩
  have hflushed := htook.flush.whole hnone
  rwa [Buffered.accepted, Buffered.flush_held hnone, List.append_nil] at hflushed

end

/-- A message of which two bytes get through when it is flushed. -/
theorem arrives_in_order_cut : ∃ b, Writing noFloats {} [some (2, .eof)] [.null] b ∧ b.wr.out = ascii "_\r" ∧
    ∀ ws, wires ws <+: ascii "_\r" → ws <+: [.null] := by
  have hnew := @Writing.new noFloats {} [some (2, .eof)]
  have hsends : Sends (encode noFloats {} .ofNull) [] [[95], eol] (some none) [] :=
    (sends_write [95] []).andThen (sends_write eol [])
  have hwritten := hnew.write (show Built .null .ofNull from rfl) hsends
  obtain ⟨-, hkeeps⟩ := @Buffered.deliver_keeps (.new ⟨[], [some (2, .eof)]⟩) [[95], eol] rfl (by decide)
  have hout : ((Buffered.new ⟨[], [some (2, .eof)]⟩).deliver [[95], eol]).2.2.flush.wr.out = ascii "_\r" := by
    rw [Buffered.flush, if_neg (by rw [hkeeps.err, hkeeps.held]; decide)]
    show (Writer.write _ _).2.2.out = _
    rw [hkeeps.held, hkeeps.wr]
    rfl
  obtain ⟨-, hread, -⟩ := arrives_in_order hwritten.flush
  rw [hout] at hread
  exact ⟨_, hwritten.flush, hout, hread⟩

end AnarchoRedis.Protocol
