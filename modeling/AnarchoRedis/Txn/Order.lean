import Mathlib.Data.List.Nodup
import AnarchoRedis.Txn.Loose
import AnarchoRedis.Txn.Reads

/-! Nothing is executed or answered twice, and what is logged is in order.

A request has one place at a time: the proxy that read it, and the connection of that
proxy to the leader (`Single`). So the leader executes it at most once and its reply is
given at most once (`Once`). The leader puts on its stream what it executes, in order, and
a subscription takes the stream from where it began, message after message (`Follows`): what
one subscription appends are commands that were executed, each at most once, in the order
of their execution (`log_in_order`). With several subscriptions the log holds as many such
sequences, in any interleaving. The order agrees with real time: what is read after an
answer comes after what was answered (`real_time`).

All this holds in every run, with clients that go away and subscriptions that fail, and
whatever the lock store does: over the set of locked keys, and over the store that
`NewTransactor` makes. -/
namespace AnarchoRedis.Txn
open Base Protocol

section
variable {C : Type}

/-- The request is with the proxy of the connection, or on its way to the leader or back. -/
def OnConn (s : State C) (i : C) (r : Request) : Prop :=
  (s.proxies i).request = some r ∨ (s.upstream i).carries = some r

/-- Every request has its own number and is on one connection. -/
structure Single (s : State C) : Prop where
  below : ∀ i r, OnConn s i r → r.id < s.fresh
  apart : ∀ i j r q, OnConn s i r → OnConn s j q → r.id = q.id → i = j
  /-- Only a proxy that waits for the reply, or has gone, has something upstream. -/
  calm : ∀ i r, (s.upstream i).carries = some r → s.proxies i = .waiting r ∨ s.proxies i = .closed

variable [DecidableEq C] {s s' : State C} {e : Event C}

theorem fresh_step (h : Moves s e s') : s.fresh ≤ s'.fresh ∧ ∀ i cmd, e = .read i cmd → s'.fresh = s.fresh + 1 := by
  cases h with
  | read i cmd => exact ⟨Nat.le_succ _, fun _ _ _ => rfl⟩
  | execute i r effect =>
    rw [execute_frame]
    exact ⟨le_rfl, fun _ _ he => by cases he⟩
  | _ => exact ⟨le_rfl, fun _ _ he => by cases he⟩

theorem onConn_step (h : Moves s e s') {i : C} {r : Request} (hr : OnConn s' i r) :
    OnConn s i r ∨ ∃ cmd, e = .read i cmd ∧ r = ⟨s.fresh, cmd⟩ := by
  rcases hr with hr | hr
  · exact (request_step h hr).imp_left .inl
  · exact .inl (carries_step h hr).symm

theorem calm_step (hs : Single s) (h : Moves s e s') (i : C) (r : Request)
    (hr : (s'.upstream i).carries = some r) : s'.proxies i = .waiting r ∨ s'.proxies i = .closed := by
  -- A proxy at any other place has nothing upstream.
  have hbusy (hu : s'.upstream i = s.upstream i) : s.proxies i = .waiting r ∨ s.proxies i = .closed :=
    hs.calm i r (by rw [← hu]; exact hr)
  cases conn_step h i with
  | same hp hu =>
    rw [hp]
    exact hbusy hu
  | forward x _ hp hu =>
    rw [hu] at hr
    cases hr
    exact .inl hp
  | execute x _ _ hx hp hu =>
    rw [hu] at hr
    cases hr
    rw [hp]
    exact hs.calm i _ (by rw [hx]; rfl)
  | reply _ _ _ _ _ hu =>
    rw [hu] at hr
    cases hr
  | close hp _ => exact .inr hp
  | read _ _ hx _ hu | select _ hx _ hu | lock _ _ hx _ hu | see _ _ _ hx _ _ hu | deliver _ hx _ hu =>
    have hstuck := hbusy hu
    rw [hx] at hstuck
    rcases hstuck with hstuck | hstuck <;> cases hstuck

theorem single_step (hs : Single s) (h : Moves s e s') : Single s' where
  below i r hr := by
    obtain ⟨hle, hread⟩ := fresh_step h
    rcases onConn_step h hr with hr | ⟨cmd, he, rfl⟩
    · exact (hs.below i r hr).trans_le hle
    · rw [hread i cmd he]
      exact Nat.lt_succ_self _
  apart i j r q hr hq hid := by
    rcases onConn_step h hr with hr | ⟨cmd, he, rfl⟩
    · rcases onConn_step h hq with hq | ⟨cmd, he, rfl⟩
      · exact hs.apart i j r q hr hq hid
      · exact absurd hid (hs.below i r hr).ne
    · rcases onConn_step h hq with hq | ⟨cmd', he', rfl⟩
      · exact absurd hid (hs.below j q hq).ne'
      · rw [he] at he'
        cases he'
        rfl
  calm := calm_step hs h

/-! ### Executed once, answered once -/

/-- What the leader executes. -/
theorem executes_step (h : Moves s e s') :
    s'.executed = s.executed ∨
      ∃ j r, s.upstream j = .request r ∧ s'.executed = s.executed ++ [r] ∧ s'.proxies = s.proxies ∧
        s'.upstream j = .reply r := by
  cases h with
  | execute j r effect hu =>
    refine .inr ⟨j, r, hu, execute_executed .., execute_proxies .., ?_⟩
    rw [execute_upstream, Function.update_self]
  | _ => exact .inl rfl

/-- What a client is answered. -/
theorem delivers_step (h : Moves s e s') :
    s'.delivered = s.delivered ∨
      ∃ j r, s.proxies j = .awaiting r [] ∧ s'.delivered = s.delivered ++ [r] ∧ s'.proxies j = .reading ∧
        s'.upstream = s.upstream := by
  cases h with
  | execute => exact .inl (execute_delivered ..)
  | deliver j r hp => exact .inr ⟨j, r, hp, rfl, Function.update_self .., rfl⟩
  | _ => exact .inl rfl

structure Once (s : State C) : Prop where
  old : ∀ r ∈ s.executed, r.id < s.fresh
  unexecuted : ∀ i r, (s.proxies i).unsent = some r ∨ (s.upstream i).unexecuted = some r →
    r.id ∉ s.executed.map Request.id
  executed : (s.executed.map Request.id).Nodup
  undelivered : ∀ i r, OnConn s i r → r.id ∉ s.delivered.map Request.id
  delivered : (s.delivered.map Request.id).Nodup

omit [DecidableEq C] in
theorem onConn_of_unexecuted {i : C} {r : Request}
    (h : (s.proxies i).unsent = some r ∨ (s.upstream i).unexecuted = some r) : OnConn s i r := by
  rcases h with h | h
  · left
    cases hp : s.proxies i with
    | forwarding x => rw [hp] at h; exact h
    | _ => rw [hp] at h; cases h
  · right
    cases hu : s.upstream i with
    | request x => rw [hu] at h; exact h
    | _ => rw [hu] at h; cases h

theorem nodup_concat {ids : List Nat} {id : Nat} (h : ids.Nodup) (hid : id ∉ ids) : (ids ++ [id]).Nodup := by
  rw [← List.concat_eq_append]
  exact List.Nodup.concat hid h

/-- A new request has a number of its own. -/
theorem fresh_notMem {n : Nat} {l : List Request} (h : ∀ r ∈ l, r.id < n) : n ∉ l.map Request.id := by
  intro hmem
  obtain ⟨x, hx, hid⟩ := List.mem_map.mp hmem
  exact absurd hid (h x hx).ne

theorem old_step (hs : Single s) (ho : Once s) (h : Moves s e s') (r : Request) (hr : r ∈ s'.executed) :
    r.id < s.fresh := by
  rcases executes_step h with he | ⟨j, x, hu, he, -⟩
  · rw [he] at hr
    exact ho.old r hr
  · rw [he, List.mem_append, List.mem_singleton] at hr
    rcases hr with hr | rfl
    · exact ho.old r hr
    · exact hs.below j r (.inr (by rw [hu]; rfl))

/-- What is yet to be executed was not executed before, or is new. -/
theorem notExecuted_step (hs : Single s) (ho : Once s) (h : Moves s e s') {i : C} {q : Request}
    (hq : (s'.proxies i).unsent = some q ∨ (s'.upstream i).unexecuted = some q) :
    q.id ∉ s'.executed.map Request.id := by
  have hwas : ((s.proxies i).unsent = some q ∨ (s.upstream i).unexecuted = some q) ∨
      ∃ cmd, e = .read i cmd ∧ q = ⟨s.fresh, cmd⟩ := by
    rcases hq with hq | hq
    · exact (unsent_step h hq).imp_left .inl
    · exact .inl (unexecuted_step h hq).symm
  rcases hwas with hwas | ⟨cmd, -, rfl⟩
  · rcases executes_step h with he | ⟨j, r, hu, he, hp', hu'⟩
    · rw [he]
      exact ho.unexecuted i q hwas
    · rw [he, List.map_append, List.mem_append, not_or]
      refine ⟨ho.unexecuted i q hwas, fun hid => ?_⟩
      have hr : OnConn s j r := .inr (by rw [hu]; rfl)
      obtain rfl : i = j := hs.apart i j q r (onConn_of_unexecuted hwas) hr (List.mem_singleton.mp hid)
      rcases hq with hq | hq
      · rw [hp'] at hq
        rcases hs.calm i r (by rw [hu]; rfl) with hp | hp <;> rw [hp] at hq <;> cases hq
      · rw [hu'] at hq
        cases hq
  · exact fresh_notMem (old_step hs ho h)

/-- What is still on a connection has not been answered. -/
theorem notDelivered_step (hs : Single s) (hx : Executed s) (ho : Once s) (h : Moves s e s') {i : C} {q : Request}
    (hq : OnConn s' i q) : q.id ∉ s'.delivered.map Request.id := by
  have hfresh : s.fresh ∉ s.delivered.map Request.id := fresh_notMem fun r hr => ho.old r (hx.delivered r hr)
  rcases delivers_step h with hd | ⟨j, r, hp, hd, hp', hu'⟩
  · rw [hd]
    rcases onConn_step h hq with hq | ⟨cmd, -, rfl⟩
    · exact ho.undelivered i q hq
    · exact hfresh
  · rw [hd, List.map_append, List.mem_append, not_or]
    have hr : OnConn s j r := .inl (by rw [hp]; rfl)
    rcases onConn_step h hq with hq' | ⟨cmd, -, rfl⟩
    · refine ⟨ho.undelivered i q hq', fun hid => ?_⟩
      obtain rfl : i = j := hs.apart i j q r hq' hr (List.mem_singleton.mp hid)
      rcases hq with hq | hq
      · rw [hp'] at hq
        cases hq
      · rw [hu'] at hq
        rcases hs.calm i q hq with hw | hw <;> rw [hp] at hw <;> cases hw
    · refine ⟨hfresh, fun hid => ?_⟩
      exact absurd (List.mem_singleton.mp hid) (hs.below j r hr).ne'

theorem once_step (hs : Single s) (hx : Executed s) (ho : Once s) (h : Moves s e s') : Once s' where
  old r hr := (old_step hs ho h r hr).trans_le (fresh_step h).1
  unexecuted _ _ := notExecuted_step hs ho h
  executed := by
    rcases executes_step h with he | ⟨j, r, hu, he, -⟩
    · rw [he]
      exact ho.executed
    · rw [he, List.map_append]
      exact nodup_concat ho.executed (ho.unexecuted j r (.inr (by rw [hu]; rfl)))
  undelivered _ _ := notDelivered_step hs hx ho h
  delivered := by
    rcases delivers_step h with hd | ⟨j, r, hp, hd, -⟩
    · rw [hd]
      exact ho.delivered
    · rw [hd, List.map_append]
      exact nodup_concat ho.delivered (ho.undelivered j r (.inl (by rw [hp]; rfl)))

/-! ### The log -/

/-- The requests on the stream are executed ones, in the order of their execution. -/
structure InOrder (s : State C) : Prop where
  order : (s.stream.filterMap Entry.origin).Sublist (s.executed.map Request.id)
  origin : ∀ d ∈ s.stream, ∀ id, d.origin = some id → ∃ r ∈ s.executed, r.id = id ∧ d.cmd = r.cmd

/-- The stream grows by what is executed. -/
theorem emits_step (h : Moves s e s') :
    s'.stream = s.stream ∧ s'.executed = s.executed ∨
      ∃ r es, s'.stream = s.stream ++ es ∧ s'.executed = s.executed ++ [r] ∧
        (es.filterMap Entry.origin).Sublist [r.id] ∧ ∀ d ∈ es, ∀ id, d.origin = some id → r.id = id ∧ d.cmd = r.cmd := by
  cases h with
  | execute i r effect hu =>
    obtain ⟨es, hes, hemit⟩ := execute_pending s i r effect
    refine .inr ⟨r, es, ?_, execute_executed .., ?_⟩
    · rw [State.stream, State.stream, execute_log, hes, List.append_assoc]
    · rcases hemit with rfl | ⟨rfl, -⟩
      · exact ⟨List.nil_sublist _, fun d hd => by cases hd⟩
      · rw [emission]
        split
        · refine ⟨List.Sublist.refl _, fun d hd id hid => ?_⟩
          rw [List.mem_singleton.mp hd] at hid ⊢
          exact ⟨Option.some.inj hid, rfl⟩
        · refine ⟨List.Sublist.refl _, fun d hd id hid => ?_⟩
          rcases List.mem_pair.mp hd with rfl | rfl
          · cases hid
          · exact ⟨Option.some.inj hid, rfl⟩
  | append d rest _ _ hp =>
    refine .inl ⟨?_, rfl⟩
    simp only [State.stream, hp, List.map_append, List.map_cons, List.map_nil, List.append_assoc, List.singleton_append]
  | _ => exact .inl ⟨rfl, rfl⟩

theorem inOrder_step (hs : InOrder s) (h : Moves s e s') : InOrder s' := by
  rcases emits_step h with ⟨hstream, hexec⟩ | ⟨r, es, hstream, hexec, hsub, hfrom⟩
  · constructor
    · rw [hstream, hexec]
      exact hs.order
    · rw [hstream, hexec]
      exact hs.origin
  · constructor
    · rw [hstream, hexec, List.filterMap_append, List.map_append]
      exact hs.order.append hsub
    · rw [hstream, hexec]
      intro d hd id hid
      rcases List.mem_append.mp hd with hd | hd
      · obtain ⟨x, hx, hrest⟩ := hs.origin d hd id hid
        exact ⟨x, List.mem_append_left _ hx, hrest⟩
      · exact ⟨r, List.mem_append_right _ (List.mem_singleton_self r), hfrom d hd id hid⟩

omit [DecidableEq C] in
theorem all_initial : Single (initial C) ∧ Executed (initial C) ∧ Once (initial C) ∧ InOrder (initial C) := by
  have hnone (i : C) (r : Request) : ¬OnConn (initial C) i r := by
    intro hr
    rcases hr with hr | hr <;> cases hr
  refine ⟨⟨fun i r hr => absurd hr (hnone i r), fun i _ r _ hr => absurd hr (hnone i r), fun i r hr => ?_⟩,
    ⟨fun i r hp => ?_, fun i r hu => ?_, fun i r hp => ?_, fun r hr => ?_⟩,
    ⟨fun r hr => ?_, fun i r hr => absurd (onConn_of_unexecuted hr) (hnone i r), List.nodup_nil,
      fun i r hr => absurd hr (hnone i r), List.nodup_nil⟩, ⟨List.Sublist.refl _, fun d hd => ?_⟩⟩
  · cases hr
  · cases hp
  · cases hu
  · cases hp
  · cases hr
  · cases hr
  · cases hd

omit [DecidableEq C] in
/-- What is locked, and which database the leader selects next, concerns none of this. -/
theorem all_frame (h : Single s ∧ Executed s ∧ Once s ∧ InOrder s) {locked : Bytes → Bool} {streamDb : Option Bytes}
    (hs' : s' = {s with locked := locked, streamDb := streamDb}) :
    Single s' ∧ Executed s' ∧ Once s' ∧ InOrder s' := by
  obtain ⟨hs, hx, ho, hin⟩ := h
  subst hs'
  exact ⟨⟨hs.below, hs.apart, hs.calm⟩, ⟨hx.paired, hx.replied, hx.answered, hx.delivered⟩,
    ⟨ho.old, ho.unexecuted, ho.executed, ho.undelivered, ho.delivered⟩, ⟨hin.order, hin.origin⟩⟩

end

/-! ### What a subscription appends -/

section
open Subscriptions (Subscription looseStep loose_of_reach)
variable {C : Type}

/-- The subscription has appended messages of the stream before where it stands, in order. -/
def Follows (stream appended : List Entry) : Subscription → Prop
  | .idle => appended = []
  | .running next _ => next ≤ stream.length ∧ appended.Sublist (stream.take next)
  | .ended => appended.Sublist stream

theorem Follows.sublist {stream appended : List Entry} {sub : Subscription} (h : Follows stream appended sub) :
    appended.Sublist stream := by
  cases sub with
  | idle =>
    rw [show appended = [] from h]
    exact List.nil_sublist _
  | running next current => exact h.2.trans (List.take_sublist next stream)
  | ended => exact h

/-- The stream grows behind the subscription. -/
theorem Follows.grow {stream more appended : List Entry} {sub : Subscription} (h : Follows stream appended sub)
    (hmore : stream <+: more) : Follows more appended sub := by
  cases sub with
  | idle => exact h
  | running next current =>
    obtain ⟨rest, rfl⟩ := hmore
    refine ⟨h.1.trans (List.prefix_append stream rest).length_le, ?_⟩
    rw [List.take_append_of_le_length h.1]
    exact h.2
  | ended => exact h.trans hmore.sublist

theorem Follows.skip {stream appended : List Entry} {next : Nat} {current : Option Entry}
    (h : Follows stream appended (.running next current)) (hlt : next < stream.length) :
    Follows stream appended (.running (next + 1) current) := by
  refine ⟨hlt, ?_⟩
  rw [List.take_add_one]
  exact h.2.trans (List.sublist_append_left _ _)

theorem Follows.append {stream appended : List Entry} {next : Nat} {e : Entry}
    (h : Follows stream appended (.running next none)) (he : stream[next]? = some e) :
    Follows stream (appended ++ [e]) (.running (next + 1) (some e)) := by
  obtain ⟨hlt, -⟩ := List.getElem?_eq_some_iff.mp he
  refine ⟨hlt, ?_⟩
  rw [List.take_add_one, he]
  exact h.2.append (List.Sublist.refl _)

variable [DecidableEq C]

/-- What the subscription of a connection has appended to the log. -/
def appendedBy (log : List (C × Entry × Bytes)) (i : C) : List Entry := (log.filter (·.1 = i)).map fun d => d.2.1

theorem appendedBy_concat (log : List (C × Entry × Bytes)) (i : C) (d : Entry × Bytes) (j : C) :
    appendedBy (log ++ [(i, d)]) j = appendedBy log j ++ if i = j then [d.1] else [] := by
  rw [appendedBy, List.filter_append, List.map_append, List.filter_singleton]
  by_cases hij : i = j
  · rw [if_pos hij, decide_eq_true hij]
    rfl
  · rw [if_neg hij, decide_eq_false hij]
    rfl

variable {s s' : Subscriptions.State C}

theorem all_loose (h : Reach looseStep Free (Subscriptions.initial C) s) :
    Single s.txn ∧ Executed s.txn ∧ Once s.txn ∧ InOrder s.txn := by
  refine h.invariant (fun s => Single s.txn ∧ Executed s.txn ∧ Once s.txn ∧ InOrder s.txn) all_initial ?_
  intro s e s' hall _ hstep
  rcases Subscriptions.txn_step hstep with ⟨e', hmove⟩ | ⟨locked, streamDb, hs'⟩
  · obtain ⟨hs, hx, ho, hin⟩ := hall
    exact ⟨single_step hs hmove, executed_inv_step hx hmove, once_step hs hx ho hmove, inOrder_step hin hmove⟩
  · exact all_frame hall hs'

theorem stream_grows {e : Subscriptions.LooseEvent C} (h : looseStep s e = some s') :
    s.txn.stream <+: s'.txn.stream := by
  rcases Subscriptions.txn_step h with ⟨e', hmove⟩ | ⟨locked, streamDb, hs'⟩
  · rcases emits_step hmove with ⟨hsame, -⟩ | ⟨r, es, hmore, -⟩
    · rw [hsame]
    · rw [hmore]
      exact List.prefix_append _ _
  · rw [hs']
    exact List.prefix_refl _

/-- A step that appends nothing, and what it leaves of one subscription. -/
theorem follows_set {i : C} {sub : Subscription} (h : ∀ j, Follows s.txn.stream (appendedBy s.log j) (s.subscriptions j))
    (hi : Follows s.txn.stream (appendedBy s.log i) sub) (j : C) :
    Follows s.txn.stream (appendedBy s.log j) (Function.update s.subscriptions i sub j) := by
  by_cases hj : j = i
  · rw [hj, Function.update_self]
    exact hi
  · rw [Function.update_of_ne hj]
    exact h j

theorem follows_append {i : C} {next : Nat} {e : Entry} {db : Bytes}
    (h : ∀ j, Follows s.txn.stream (appendedBy s.log j) (s.subscriptions j))
    (hi : s.subscriptions i = .running next none) (he : s.txn.stream[next]? = some e) (j : C) :
    Follows s.txn.stream (appendedBy (s.log ++ [(i, e, db)]) j)
      (Function.update s.subscriptions i (.running (next + 1) (some e)) j) := by
  have hj := h j
  rw [appendedBy_concat]
  by_cases hij : i = j
  · rw [← hij, hi] at hj
    rw [if_pos hij, ← hij, Function.update_self]
    exact hj.append he
  · rw [if_neg hij, List.append_nil, Function.update_of_ne (Ne.symm hij)]
    exact hj

theorem follows_step {e : Subscriptions.LooseEvent C}
    (h : ∀ j, Follows s.txn.stream (appendedBy s.log j) (s.subscriptions j)) (hstep : looseStep s e = some s') (i : C) :
    Follows s'.txn.stream (appendedBy s'.log i) (s'.subscriptions i) := by
  have hgrows := stream_grows hstep
  cases e with
  | locks locked =>
    cases hstep
    exact h i
  | step e =>
    cases Subscriptions.step_moves hstep with
    | txn _ _ => exact (h i).grow hgrows
    | subscribe j next anew hj hnext =>
      have hnone := h j
      rw [hj] at hnone
      refine follows_set h (show Follows _ _ (.running next none) from ⟨hnext, ?_⟩) i
      rw [show appendedBy s.log j = [] from hnone]
      exact List.nil_sublist _
    | append j next d hj hd => exact follows_append h hj hd i
    | unlock j next d hj =>
      refine follows_set h ?_ i
      have hfollows := h j
      rw [hj] at hfollows
      exact hfollows
    | skip j next current hj hlt =>
      refine follows_set h ?_ i
      have hfollows := h j
      rw [hj] at hfollows
      exact hfollows.skip hlt
    | stop j => exact follows_set h (show Follows _ _ .ended from (h j).sublist) i

theorem follows_loose (h : Reach looseStep Free (Subscriptions.initial C) s) (i : C) :
    Follows s.txn.stream (appendedBy s.log i) (s.subscriptions i) := by
  have hall : ∀ i, Follows s.txn.stream (appendedBy s.log i) (s.subscriptions i) := by
    refine h.invariant (fun s => ∀ i, Follows s.txn.stream (appendedBy s.log i) (s.subscriptions i)) ?_ ?_
    · exact fun _ => rfl
    · exact fun _ _ _ hs _ hstep => follows_step hs hstep
  exact hall i

/-- Nothing is executed or answered twice, and what is answered has been executed. What a
subscription has appended are the commands of executed requests, each at most once, in the
order in which the leader executed them. -/
structure Ordered (s : Subscriptions.State C) : Prop where
  executed : (s.txn.executed.map Request.id).Nodup
  delivered : (s.txn.delivered.map Request.id).Nodup
  answered : s.txn.delivered ⊆ s.txn.executed
  log : ∀ i, ((appendedBy s.log i).filterMap Entry.origin).Sublist (s.txn.executed.map Request.id)
  origin : ∀ i, ∀ d ∈ appendedBy s.log i, ∀ id, d.origin = some id → ∃ r ∈ s.txn.executed, r.id = id ∧ d.cmd = r.cmd

theorem ordered_loose (h : Reach looseStep Free (Subscriptions.initial C) s) : Ordered s := by
  obtain ⟨-, hx, ho, hin⟩ := all_loose h
  have hstream (i : C) : (appendedBy s.log i).Sublist s.txn.stream := (follows_loose h i).sublist
  refine ⟨ho.executed, ho.delivered, hx.delivered, fun i => ?_, fun i d hd => hin.origin d ((hstream i).subset hd)⟩
  exact ((hstream i).filterMap _).trans hin.order

end

section
variable {C : Type} [DecidableEq C]

theorem appendedBy_ofOne (i : C) (t : State C) : appendedBy (Subscriptions.ofOne i t).log i = t.log.map Prod.fst := by
  rw [appendedBy, Subscriptions.ofOne, List.filter_map, List.map_map]
  simp [Function.comp_def]

/-- With one subscription for all connections the whole log is in that order. -/
theorem log_sublist_of_one (i : C) {t : State C} (h : Reach step Free (initial C) t) :
    ((t.log.map Prod.fst).filterMap Entry.origin).Sublist (t.executed.map Request.id) := by
  rw [← appendedBy_ofOne i]
  exact (ordered_loose (Subscriptions.loose_of_reach (Subscriptions.one_refines i h))).log i

end

/-! ### Real time -/

section
open Subscriptions (looseStep loose_of_reach)
variable {C : Type} [DecidableEq C] {s s' : Subscriptions.State C}

/-- What has been answered in the first state comes before what is read after it, in the
order in which the leader executes and in what any subscription logs. -/
def RealTime (s s' : Subscriptions.State C) : Prop :=
  ∀ r ∈ s.txn.delivered, ∀ q ∈ s'.txn.executed, s.txn.fresh ≤ q.id →
    ∃ before after, s'.txn.executed = before ++ after ∧ r ∈ before ∧ q ∈ after ∧
      ∀ i, ∃ logged later, (appendedBy s'.log i).filterMap Entry.origin = logged ++ later ∧
        r.id ∉ later ∧ q.id ∉ logged

theorem executed_grows (h : Reach looseStep Free s s') : s.txn.executed <+: s'.txn.executed := by
  refine h.invariant (fun s' => s.txn.executed <+: s'.txn.executed) (List.prefix_refl _) ?_
  intro t e t' hprefix _ hstep
  rcases Subscriptions.txn_step hstep with ⟨e', hmove⟩ | ⟨locked, streamDb, ht'⟩
  · rcases executes_step hmove with he | ⟨j, r, -, he, -⟩
    · rwa [he]
    · rw [he]
      exact hprefix.trans (List.prefix_append _ _)
  · rw [ht']
    exact hprefix

theorem realTime_loose (h : Reach looseStep Free (Subscriptions.initial C) s) (h' : Reach looseStep Free s s') :
    RealTime s s' := by
  intro r hr q hq hlate
  obtain ⟨-, hx, ho, -⟩ := all_loose h
  have hordered := ordered_loose (h.trans h')
  obtain ⟨after, hafter⟩ := executed_grows h'
  have hnew : q.id ∉ s.txn.executed.map Request.id := by
    intro hmem
    obtain ⟨x, hx, hid⟩ := List.mem_map.mp hmem
    exact absurd (ho.old x hx) (not_lt_of_ge (hid ▸ hlate))
  have hthere : r ∈ s.txn.executed := hx.delivered r hr
  have honce := hordered.executed
  rw [← hafter, List.map_append] at honce
  refine ⟨s.txn.executed, after, hafter.symm, hthere, ?_, fun i => ?_⟩
  · rw [← hafter] at hq
    exact (List.mem_append.mp hq).resolve_left fun hold => hnew (List.mem_map_of_mem hold)
  · have hlog := hordered.log i
    rw [← hafter, List.map_append] at hlog
    obtain ⟨logged, later, hsplit, hlogged, hlater⟩ := List.sublist_append_iff.mp hlog
    refine ⟨logged, later, hsplit, fun hmem => ?_, fun hmem => hnew (hlogged.subset hmem)⟩
    exact (List.nodup_append.mp honce).2.2 _ (List.mem_map_of_mem hthere) _ (hlater.subset hmem) rfl

/-- **A request that is read after another was answered comes after it**, in every run over
either lock store. -/
theorem real_time :
    (∀ s s', Reach Subscriptions.step Free (Subscriptions.initial C) s → Reach Subscriptions.step Free s s' →
      RealTime s s') ∧
    ∀ shows s s', Reach (Coded.step shows) Free (Coded.initial C) s → Reach (Coded.step shows) Free s s' →
      RealTime s.system s'.system :=
  ⟨fun _ _ h h' => realTime_loose (loose_of_reach h) (loose_of_reach h'),
    fun _ _ _ h h' => realTime_loose (coded_refines h) (coded_refines h')⟩

end

/-- A write is answered before the next is read, by another client. -/
theorem real_time_two : ∃ s' : Subscriptions.State Bool, s'.txn.executed.map Request.id = [0, 1] ∧
    ∃ before after, s'.txn.executed = before ++ after ∧ ⟨0, setCommand "k" "1"⟩ ∈ before ∧
      ⟨1, setCommand "l" "2"⟩ ∈ after := by
  obtain ⟨s, s', hs, hs', hf⟩ := exists_reach_of_play_then Subscriptions.step (fun _ _ => true) (fun _ _ _ => trivial)
    (Subscriptions.initial Bool)
    ([.subscribe false 0 true] ++ (request false (setCommand "k" "1") true).map Subscriptions.Event.txn ++
      [.append false, .unlock false, .append false, .unlock false, .txn (.see false (ascii "k")), .txn (.deliver false)])
    ((request true (setCommand "l" "2") true).map Subscriptions.Event.txn)
    (fun s s' => decide (s.txn.delivered = [⟨0, setCommand "k" "1"⟩] ∧ s.txn.fresh = 1 ∧
      s'.txn.executed = [⟨0, setCommand "k" "1"⟩, ⟨1, setCommand "l" "2"⟩])) (by decide)
  obtain ⟨hdelivered, hfresh, hexecuted⟩ := of_decide_eq_true hf
  have hr : ⟨0, setCommand "k" "1"⟩ ∈ s.txn.delivered := by simp [hdelivered]
  have hq : ⟨1, setCommand "l" "2"⟩ ∈ s'.txn.executed := by simp [hexecuted]
  obtain ⟨before, after, hsplit, hr, hq, -⟩ := real_time.1 s s' hs hs' _ hr _ hq (le_of_eq hfresh)
  exact ⟨s', by rw [hexecuted]; rfl, before, after, hsplit, hr, hq⟩

end AnarchoRedis.Txn
