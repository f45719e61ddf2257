import Mathlib.Data.List.Infix

/-! Iterators that call their consumer.

An iterator is a function that calls another, its consumer, with one value after the
other; the consumer says after each call whether it wants more. `recorder` is a consumer
that keeps its calls, and decides by all of them. `Follows` is the protocol between the
two: the consumer is called with what is expected, in order, up to the call after which
it wants no more, and not again.

An iterator that never makes too few calls, whatever the consumer answers, follows the
protocol exactly when it makes those expected and the consumer does not want to stop
before the last of them (`follows_iff`). -/
namespace AnarchoRedis.Base.Iterators

/-- What an iterator calls, with a value and in a state of its own: whether it wants more,
and its next state; no result for a crash. -/
abbrev Consumer (α σ : Type) := α → σ → Option (Bool × σ)

/-- An iterator, for consumers of any kind. -/
abbrev Iter (α : Type) := ∀ {σ : Type}, Consumer α σ → σ → Option σ

section
variable {α σ : Type}

/-- The iterator over the values of a list. -/
def ofList (xs : List α) (yield : Consumer α σ) (s : σ) : Option σ :=
  match xs with
  | [] => some s
  | x :: rest =>
    match yield x s with
    | none => none
    | some (false, s') => some s'
    | some (true, s') => ofList rest yield s'

/-- The consumer that keeps its calls; `wants` decides by all of them. -/
def recorder (wants : List α → Bool) : Consumer α (List α) := fun x calls => some (wants (calls ++ [x]), calls ++ [x])

/-- After every call but the last the consumer wants more. -/
def Stays (wants : List α → Bool) (calls : List α) : Prop :=
  ∀ n, 0 < n → n < calls.length → wants (calls.take n) = true

/-- The calls that an iterator is to make of such a consumer. -/
structure Follows (wants : List α → Bool) (expected calls : List α) : Prop where
  /-- They are those expected, in order. -/
  ordered : calls <+: expected
  /-- None is left out unless the consumer wants no more. -/
  complete : calls ≠ expected → calls ≠ [] ∧ wants calls = false
  /-- None comes after one with which it wants no more. -/
  stops : Stays wants calls

/-- **Who makes as many calls as are expected, or more, follows the protocol** exactly if
they are those expected and the consumer stays for them. -/
theorem follows_iff {wants : List α → Bool} {expected calls : List α} (h : expected.length ≤ calls.length) :
    Follows wants expected calls ↔ calls = expected ∧ Stays wants expected := by
  constructor
  · intro hf
    have heq : calls = expected := hf.ordered.eq_of_length_le h
    exact ⟨heq, heq ▸ hf.stops⟩
  · intro h
    obtain ⟨rfl, hstays⟩ := h
    exact ⟨List.prefix_rfl, fun hne => absurd rfl hne, hstays⟩

end

end AnarchoRedis.Base.Iterators
