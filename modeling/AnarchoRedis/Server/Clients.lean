import Mathlib.Logic.Function.Basic
import AnarchoRedis.Server.Serve

/-! The server with the transactor behind it.

`Transact` is the `connFunc` of the server. A call dials the leader and then waits in
an `errgroup` for two goroutines: the subscription, which returns nil only when the
context is cancelled, and the loop of `proxy`, which returns the first error of `proxy`
or, when the context is cancelled, its cause. The group is a parameter: of it only what its
documentation says of `Wait` is used (`Documented`).

So no call returns nil, and every call that ends cancels the server
(`transact_cancels`); and a client that has gone away keeps its call until the
subscription has ended too. -/
namespace AnarchoRedis.Server
open Base

inductive Goroutine where
  | stream
  | proxy
  deriving DecidableEq

/-- Where a call of `Transact` stands. -/
inductive Transact (E : Type) where
  /-- At `DialContext`. -/
  | dialing
  | refused (err : E)
  /-- In `Wait`, with what the goroutines have returned, in order. -/
  | waiting (returns : List (Goroutine × Option E))
  | returned (returns : List (Goroutine × Option E))
  deriving DecidableEq

structure Process (E Conn : Type) where
  server : State E Conn := {}
  /-- The calls of `Transact`, by the goroutines of the server. -/
  calls : Nat → Transact E := fun _ => .dialing

inductive Act (E Conn : Type) where
  /-- A step of the server, but for the return of a `connFunc`. -/
  | server (e : Event E Conn)
  | dialed (i : Nat) (err : Option E)
  | fails (i : Nat) (g : Goroutine) (err : E)
  /-- The goroutine finds the context cancelled at the condition of its loop. -/
  | leaves (i : Nat) (g : Goroutine)
  /-- `Wait` returns, and `Transact` with it. -/
  | returns (i : Nat)

/-- What `Wait` of the group makes of what the functions have returned, in the order in
which they did: nothing while it blocks, and then its result. -/
abbrev Wait (E : Type) := List (Goroutine × Option E) → Option (Option E)

/-- "Wait blocks until all function calls from the Go method have returned, then returns the
first non-nil error (if any) from them." -/
structure Documented {E : Type} (wait : Wait E) : Prop where
  blocks : ∀ returns result, wait returns = some result → ∀ g, ∃ err, (g, err) ∈ returns
  first : ∀ returns result, wait returns = some result → result = returns.findSome? Prod.snd

section
variable {E Conn : Type} {wait : Wait E}

/-- What a goroutine returns at the condition of its loop: `StreamUpdates` nil, the loop
of `proxy` the cause. -/
def Goroutine.last (cause : Option E) : Goroutine → Option E
  | .stream => none
  | .proxy => cause

def Process.setCall (p : Process E Conn) (i : Nat) (call : Transact E) : Process E Conn :=
  {p with calls := Function.update p.calls i call}

theorem Process.setCall_self (p : Process E Conn) (i : Nat) (call : Transact E) : (p.setCall i call).calls i = call :=
  Function.update_self ..

theorem Process.setCall_of_ne (p : Process E Conn) {i j : Nat} (h : j ≠ i) (call : Transact E) :
    (p.setCall i call).calls j = p.calls j := Function.update_of_ne h ..

/-- `Transact` returns to the goroutine that called it. -/
def Process.finish (p : Process E Conn) (i : Nat) (call : Transact E) (err : Option E) : Option (Process E Conn) :=
  (step p.server (.finish i err)).map fun server => {p.setCall i call with server := server}

/-- A goroutine of the call returns, which it has not done before. -/
def Process.goReturns (p : Process E Conn) (i : Nat) (g : Goroutine) (err : Option E) : Option (Process E Conn) :=
  match p.calls i with
  | .waiting returns =>
    if returns.any (·.1 == g) then none else some (p.setCall i (.waiting (returns ++ [(g, err)])))
  | _ => none

def Process.act (wait : Wait E) (p : Process E Conn) : Act E Conn → Option (Process E Conn)
  | .server (.finish _ _) => none
  | .server e => (step p.server e).map fun server => {p with server := server}
  | .dialed i err =>
    match p.server.handlers[i]?, p.calls i, err with
    | some (_, .running), .dialing, none => some (p.setCall i (.waiting []))
    | some (_, .running), .dialing, some err => p.finish i (.refused err) (some err)
    | _, _, _ => none
  | .fails i g err => p.goReturns i g (some err)
  | .leaves i g => if p.server.cause.isSome then p.goReturns i g (g.last p.server.cause) else none
  | .returns i =>
    match p.calls i with
    | .waiting returns =>
      match wait returns with
      | some result => p.finish i (.returned returns) result
      | none => none
    | _ => none

/-! ### What a step of the server does to a goroutine -/

/-- What `connFunc` returns leads its goroutine on. -/
def Phase.after : Option E → Phase E
  | none => .ended none
  | some err => .failing err

/-- How a goroutine has come to where it is. -/
inductive Came (s : State E Conn) (e : Event E Conn) (s' : State E Conn) (i : Nat) (conn : Conn) : Phase E → Prop where
  | started : Came s e s' i conn .running
  | stays {p : Phase E} : s.handlers[i]? = some (conn, p) → Came s e s' i conn p
  | finished (err : Option E) : e = .finish i err → Came s e s' i conn (Phase.after err)
  | cancelled (err : E) : s.handlers[i]? = some (conn, .failing err) → (Origin.handler i, err) ∈ s'.cancels →
      Came s e s' i conn (.ended (some err))

variable {s s' : State E Conn} {e : Event E Conn}

theorem getElem?_setPhase {i j : Nat} {conn conn' : Conn} {p q : Phase E}
    (h : (s.setPhase j conn q).handlers[i]? = some (conn', p)) :
    (i = j ∧ conn' = conn ∧ p = q) ∨ s.handlers[i]? = some (conn', p) := by
  rw [State.setPhase, List.getElem?_set] at h
  split at h
  · rename_i hij
    split at h
    · cases h
      exact .inl ⟨hij.symm, rfl, rfl⟩
    · cases h
  · exact .inr h

theorem step_came (h : step s e = some s') {i : Nat} {conn : Conn} {p : Phase E}
    (hi : s'.handlers[i]? = some (conn, p)) : Came s e s' i conn p := by
  cases step_moves h with
  | enter | leave | giveUp | accept | acceptFails | cancelParent | close => exact .stays hi
  | start =>
    rw [List.getElem?_append] at hi
    split at hi
    · exact .stays hi
    · have hlast := List.mem_of_getElem? hi
      cases List.mem_singleton.mp hlast
      exact .started
  | succeed =>
    rcases getElem?_setPhase hi with ⟨rfl, rfl, rfl⟩ | hi
    · exact .finished none rfl
    · exact .stays hi
  | fail err =>
    rcases getElem?_setPhase hi with ⟨rfl, rfl, rfl⟩ | hi
    · exact .finished (some err) rfl
    · exact .stays hi
  | cancel hfailing =>
    rcases getElem?_setPhase hi with ⟨rfl, rfl, rfl⟩ | hi
    · exact .cancelled _ hfailing (List.mem_append_right _ (List.mem_singleton_self _))
    · exact .stays hi

theorem cancels_step (h : step s e = some s') {c : Origin × E} (hc : c ∈ s.cancels) : c ∈ s'.cancels := by
  cases step_moves h with
  | enter | leave | start | giveUp | accept | acceptFails | succeed | fail | close => exact hc
  | cancel => exact List.mem_append_left _ hc
  | cancelParent => exact List.mem_append_left _ hc

/-! ### What a step of the whole can do -/

inductive Acts (wait : Wait E) (p : Process E Conn) : Process E Conn → Prop where
  | server {e : Event E Conn} {server : State E Conn} : (∀ i err, e ≠ .finish i err) → step p.server e = some server →
      Acts wait p {p with server := server}
  | dialed {i : Nat} : p.calls i = .dialing → Acts wait p (p.setCall i (.waiting []))
  | refused {i : Nat} (err : E) {server : State E Conn} : p.calls i = .dialing →
      step p.server (.finish i (some err)) = some server →
      Acts wait p {p.setCall i (.refused err) with server := server}
  | goReturns {i : Nat} {returns : List (Goroutine × Option E)} (g : Goroutine) (err : Option E) :
      p.calls i = .waiting returns → (g = .proxy → err ≠ none) →
      Acts wait p (p.setCall i (.waiting (returns ++ [(g, err)])))
  | returned {i : Nat} {returns : List (Goroutine × Option E)} {result : Option E} {server : State E Conn} :
      p.calls i = .waiting returns → wait returns = some result → step p.server (.finish i result) = some server →
      Acts wait p {p.setCall i (.returned returns) with server := server}

variable {p p' : Process E Conn} {a : Act E Conn}

theorem goReturns_acts {i : Nat} {g : Goroutine} {err : Option E} (hg : g = .proxy → err ≠ none)
    (h : p.goReturns i g err = some p') : Acts wait p p' := by
  unfold Process.goReturns at h
  split at h
  · rename_i returns hcall
    split at h
    · cases h
    · cases h
      exact .goReturns g err hcall hg
  · cases h

theorem act_acts (h : p.act wait a = some p') : Acts wait p p' := by
  cases a with
  | server e =>
    cases e with
    | finish i err => cases h
    | loop | accept | acceptFails | cancel | cancelParent | close =>
      simp only [Process.act, Option.map_eq_some_iff] at h
      obtain ⟨server, hstep, rfl⟩ := h
      exact .server (fun _ _ he => by cases he) hstep
  | dialed i err =>
    simp only [Process.act] at h
    split at h
    · rename_i hcall
      cases h
      exact .dialed hcall
    · rename_i err' _ hcall
      obtain ⟨server, hstep, rfl⟩ := Option.map_eq_some_iff.mp h
      exact .refused err' hcall hstep
    · cases h
  | fails i g err => exact goReturns_acts (fun _ => Option.some_ne_none err) h
  | leaves i g =>
    simp only [Process.act] at h
    split at h
    · rename_i hcause
      refine goReturns_acts (fun hg hnone => ?_) h
      rw [hg, Goroutine.last] at hnone
      rw [hnone] at hcause
      cases hcause
    · cases h
  | returns i =>
    simp only [Process.act] at h
    split at h
    · rename_i returns hcall
      split at h
      · rename_i result hwait
        obtain ⟨server, hstep, rfl⟩ := Option.map_eq_some_iff.mp h
        exact .returned hcall hwait hstep
      · cases h
    · cases h

/-- The server does nothing that it could not do with another `connFunc`. -/
theorem acts_server (h : Acts wait p p') : Reach step Free p.server p'.server := by
  cases h with
  | dialed | goReturns => exact .start
  | server _ hstep | refused _ _ hstep | returned _ _ hstep => exact .next .start trivial hstep

/-! ### The end of a call -/

/-- The call has returned this error: that of `DialContext`, or the first error of its
goroutines, all of which have returned. -/
def Transact.Ends : Transact E → E → Prop
  | .refused err, failure => failure = err
  | .returned returns, failure => (∀ g, ∃ err, (g, err) ∈ returns) ∧ returns.findSome? Prod.snd = some failure
  | .dialing, _ | .waiting _, _ => False

/-- A call that has not ended. -/
def Transact.Open (call : Transact E) : Prop := ∀ failure, ¬call.Ends failure

structure Sober (p : Process E Conn) : Prop where
  /-- The loop of `proxy` never returns nil. -/
  proxy : ∀ i returns, p.calls i = .waiting returns → ∀ err, (Goroutine.proxy, err) ∈ returns → err ≠ none
  failing : ∀ i conn failure, p.server.handlers[i]? = some (conn, .failing failure) → (p.calls i).Ends failure
  ended : ∀ i conn err, p.server.handlers[i]? = some (conn, .ended err) →
    ∃ failure, err = some failure ∧ (p.calls i).Ends failure ∧ (Origin.handler i, failure) ∈ p.server.cancels

/-- While a call is open its goroutine runs. -/
theorem Sober.setCall (h : Sober p) {i : Nat} {call : Transact E} (hi : (p.calls i).Open)
    (hproxy : ∀ returns, call = .waiting returns → ∀ err, (Goroutine.proxy, err) ∈ returns → err ≠ none) :
    Sober (p.setCall i call) where
  proxy j returns hj := by
    by_cases hij : j = i
    · subst hij
      rw [p.setCall_self] at hj
      exact hproxy returns hj
    · rw [p.setCall_of_ne hij] at hj
      exact h.proxy j returns hj
  failing j conn failure hj := by
    have hends := h.failing j conn failure hj
    have hij : j ≠ i := fun hij => hi failure (hij ▸ hends)
    rw [p.setCall_of_ne hij]
    exact hends
  ended j conn err hj := by
    obtain ⟨failure, herr, hends, hmem⟩ := h.ended j conn err hj
    have hij : j ≠ i := fun hij => hi failure (hij ▸ hends)
    rw [p.setCall_of_ne hij]
    exact ⟨failure, herr, hends, hmem⟩

/-- A step of the server, where a `connFunc` that returns is a call that has ended. -/
theorem Sober.server (h : Sober p) {server : State E Conn}
    (hfinish : ∀ i err, e = .finish i err → ∃ failure, err = some failure ∧ (p.calls i).Ends failure)
    (hstep : step p.server e = some server) : Sober {p with server := server} where
  proxy := h.proxy
  failing i conn failure hi := by
    generalize hphase : Phase.failing failure = phase at hi
    cases step_came hstep hi with
    | started | cancelled => cases hphase
    | stays hold =>
      subst hphase
      exact h.failing i conn failure hold
    | finished err he =>
      obtain ⟨failure', rfl, hends⟩ := hfinish i err he
      cases hphase
      exact hends
  ended i conn err hi := by
    generalize hphase : Phase.ended err = phase at hi
    cases step_came hstep hi with
    | started => cases hphase
    | stays hold =>
      subst hphase
      obtain ⟨failure, herr, hends, hmem⟩ := h.ended i conn err hold
      exact ⟨failure, herr, hends, cancels_step hstep hmem⟩
    | finished err he =>
      obtain ⟨failure', rfl, -⟩ := hfinish i err he
      cases hphase
    | cancelled failure hold hmem =>
      cases hphase
      exact ⟨failure, rfl, h.failing i conn failure hold, hmem⟩

/-- A call that returns to its goroutine, with an error. -/
theorem Sober.finish (h : Sober p) {i : Nat} {call : Transact E} {failure : E} {server : State E Conn}
    (hi : (p.calls i).Open) (hcall : call.Ends failure)
    (hstep : step p.server (.finish i (some failure)) = some server) :
    Sober {p.setCall i call with server := server} := by
  have hset : Sober (p.setCall i call) := h.setCall hi fun returns hr => by rw [hr] at hcall; cases hcall
  refine hset.server (fun j err he => ?_) hstep
  cases he
  refine ⟨failure, rfl, ?_⟩
  rw [p.setCall_self]
  exact hcall

/-- What `Wait` returns once the loop of `proxy` has returned an error. -/
theorem Documented.ends (hd : Documented wait) {returns : List (Goroutine × Option E)} {result : Option E}
    (hwait : wait returns = some result) (hproxy : ∀ err, (Goroutine.proxy, err) ∈ returns → err ≠ none) :
    ∃ failure, result = some failure ∧ (Transact.returned returns).Ends failure := by
  have hall := hd.blocks returns result hwait
  obtain ⟨err, hmem⟩ := hall .proxy
  have hsome : (returns.findSome? Prod.snd).isSome = true := by
    rw [List.findSome?_isSome_iff]
    exact ⟨_, hmem, Option.isSome_iff_ne_none.mpr (hproxy err hmem)⟩
  obtain ⟨failure, hfailure⟩ := Option.isSome_iff_exists.mp hsome
  exact ⟨failure, (hd.first returns result hwait).trans hfailure, hall, hfailure⟩

theorem sober_step (hd : Documented wait) (h : Sober p) (hacts : Acts wait p p') : Sober p' := by
  have hopen {i : Nat} (hi : p.calls i = .dialing ∨ ∃ returns, p.calls i = .waiting returns) : (p.calls i).Open := by
    intro failure hends
    rcases hi with hi | ⟨returns, hi⟩ <;> rw [hi] at hends <;> exact hends
  cases hacts with
  | server hno hstep => exact h.server (fun i err he => absurd he (hno i err)) hstep
  | dialed hcall =>
    refine h.setCall (hopen (.inl hcall)) fun returns hr err hmem => ?_
    cases hr
    cases hmem
  | refused err hcall hstep => exact h.finish (hopen (.inl hcall)) rfl hstep
  | goReturns g err hcall hg =>
    refine h.setCall (hopen (.inr ⟨_, hcall⟩)) fun returns hr err' hmem => ?_
    cases hr
    rcases List.mem_append.mp hmem with hold | hnew
    · exact h.proxy _ _ hcall err' hold
    · cases List.mem_singleton.mp hnew
      exact hg rfl
  | returned hcall hwait hstep =>
    obtain ⟨failure, rfl, hends⟩ := hd.ends hwait (h.proxy _ _ hcall)
    exact h.finish (hopen (.inr ⟨_, hcall⟩)) hends hstep

/-- **Every call of `Transact` that ends cancels the server**, whatever the interleaving:
it returns the error of the dialing, or once its two goroutines have returned the first of
their errors, and never nil. The server itself behaves as with any `connFunc`. -/
theorem transact_cancels (hd : Documented wait) (h : Reach (Process.act wait) Free ({} : Process E Conn) p) :
    Reach step Free (initial E Conn) p.server ∧
      ∀ i conn err, p.server.handlers[i]? = some (conn, .ended err) →
        ∃ failure, err = some failure ∧ (p.calls i).Ends failure ∧ (Origin.handler i, failure) ∈ p.server.cancels ∧
          p.server.cause ≠ none := by
  have hserver : Reach step Free (initial E Conn) p.server :=
    h.refines Process.server fun _ _ _ hact => acts_server (act_acts hact)
  have hsober : Sober p := by
    refine h.invariant Sober ⟨fun i returns hi => ?_, fun i conn phase hi => ?_, fun i conn err hi => ?_⟩ ?_
    · cases hi
    · cases hi
    · cases hi
    · exact fun _ _ _ hp _ hact => sober_step hd hp (act_acts hact)
  refine ⟨hserver, fun i conn err hi => ?_⟩
  obtain ⟨failure, herr, hends, hmem⟩ := hsober.ended i conn err hi
  refine ⟨failure, herr, hends, hmem, ?_⟩
  rw [(orderly_reach hserver).cause, ne_eq, Option.map_eq_none_iff, List.head?_eq_none_iff]
  exact List.ne_nil_of_mem hmem

/-- A group that does as documented. -/
def waitBoth : Wait Nat := fun returns =>
  if returns.any (·.1 == .stream) && returns.any (·.1 == .proxy) then some (returns.findSome? Prod.snd) else none

theorem documented_waitBoth : Documented waitBoth := by
  have hboth {returns : List (Goroutine × Option Nat)} {result : Option Nat} (h : waitBoth returns = some result) :
      (returns.any (·.1 == .stream) = true ∧ returns.any (·.1 == .proxy) = true) ∧
        result = returns.findSome? Prod.snd := by
    unfold waitBoth at h
    split at h
    · rename_i hboth
      cases h
      exact ⟨Bool.and_eq_true_iff.mp hboth, rfl⟩
    · cases h
  refine ⟨fun returns result h g => ?_, fun returns result h => (hboth h).2⟩
  have hany : returns.any (·.1 == g) = true := by
    cases g with
    | stream => exact (hboth h).1.1
    | proxy => exact (hboth h).1.2
  obtain ⟨⟨g', err⟩, hmem, hg⟩ := List.any_eq_true.mp hany
  exact ⟨err, eq_of_beq hg ▸ hmem⟩

/-- A client goes away with error 3; the server is cancelled once the subscription has
failed too. -/
theorem transact_cancels_client : ∃ p : Process Nat Nat, p.server.handlers[0]? = some (7, .ended (some 3)) ∧
    (p.calls 0).Ends 3 ∧ (Origin.handler 0, 3) ∈ p.server.cancels ∧ p.server.cause ≠ none := by
  obtain ⟨p, hp, hfound⟩ := exists_reach_of_play (@Process.act Nat Nat waitBoth) (fun _ _ => true)
    (fun _ _ _ => trivial) {}
    [.server .loop, .server (.accept 7), .server .loop, .dialed 0 none, .fails 0 .proxy 3, .fails 0 .stream 4,
      .returns 0, .server (.cancel 0)]
    (fun p => decide (p.server.handlers[0]? = some ((7, .ended (some 3)) : Nat × Phase Nat))) (by decide)
  have hended := of_decide_eq_true hfound
  obtain ⟨failure, herr, hends, hmem, hcause⟩ := (transact_cancels documented_waitBoth hp).2 0 7 _ hended
  cases herr
  exact ⟨p, hended, hends, hmem, hcause⟩

end

end AnarchoRedis.Server
