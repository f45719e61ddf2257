import AnarchoRedis.Txn.Steps

/-! Which database a command is logged under.

`handleMessages` tags every message with `t.database`, one cell that the proxy of
any client sets when a `SELECT` of that client is answered; the `SELECT`s on the
stream itself are logged like any other message and set nothing. The tag is right
in every run in which no client selects another database than the one a
connection starts with (`tagged`). -/
namespace AnarchoRedis.Txn
open Base

/-- The database a connection and the stream start with. -/
def database0 : Bytes := ascii "0"

/-- The database that the messages leave selected. -/
def lastSelect (es : List Entry) : Bytes := (es.filterMap fun e => e.cmd.selects).getLast?.getD database0

/-- A command that selects no other database. -/
def Command.staysAtZero (c : Command) : Bool := c.selects.all (· == database0)

/-- What such a command selects, if anything, is the first database. -/
theorem eq_zero_of_selects {c : Command} (h : c.staysAtZero = true) {db : Bytes}
    (hdb : c.selects = some db) : db = database0 := by
  rw [Command.staysAtZero, hdb, Option.all_some, beq_iff_eq] at h
  exact h

theorem lastSelect_zero {es : List Entry} (h : ∀ e ∈ es, e.cmd.staysAtZero = true) :
    lastSelect es = database0 := by
  unfold lastSelect
  cases hl : (es.filterMap fun e => e.cmd.selects).getLast? with
  | none => rfl
  | some db =>
    obtain ⟨e, he, hdb⟩ := List.mem_filterMap.mp (List.mem_of_getLast? hl)
    exact eq_zero_of_selects (h e he) hdb

section
variable {C : Type}

/-- Every logged message carries the database that the stream before it leaves
selected. -/
def Tagged (s : State C) : Prop :=
  ∀ earlier e db later, s.log = earlier ++ (e, db) :: later → db = lastSelect (earlier.map Prod.fst)

/-- Asked of a client: it selects no other database than the first. -/
def selectRule (_ : State C) : Event C → Bool
  | .read _ cmd => cmd.staysAtZero
  | _ => true

/-- Nothing in the system selects another database. -/
structure AtZero (s : State C) : Prop where
  requests : ∀ i r, (s.proxies i).request = some r → r.cmd.staysAtZero = true
  carried : ∀ i r, (s.upstream i).carries = some r → r.cmd.staysAtZero = true
  chosen : ∀ i, s.chosen i = database0
  database : s.database = database0
  stream : ∀ e ∈ s.stream, e.cmd.staysAtZero = true
  log : ∀ d ∈ s.log, d.2 = database0

theorem AtZero.tags {s : State C} (h : AtZero s) : Tagged s := by
  intro earlier e db later hlog
  have hdb : db = database0 := h.log (e, db) (by simp [hlog])
  rw [hdb, lastSelect_zero]
  intro x hx
  obtain ⟨d, hd, rfl⟩ := List.mem_map.mp hx
  refine h.stream d.1 (List.mem_append_left _ (List.mem_map_of_mem ?_))
  rw [hlog]
  exact List.mem_append_left _ hd

theorem emission_zero {streamDb : Option Bytes} {e : Entry} (h : e.cmd.staysAtZero = true) :
    ∀ x ∈ emission streamDb database0 e, x.cmd.staysAtZero = true := by
  intro x hx
  unfold emission at hx
  split at hx
  · rw [List.mem_singleton] at hx
    rw [hx, h]
  · rw [List.mem_cons, List.mem_singleton] at hx
    rcases hx with rfl | rfl
    · decide
    · exact h

variable [DecidableEq C]

/-- What a step adds to the stream. -/
theorem stream_adds {s s' : State C} {e : Event C} (h : Moves s e s') :
    s'.stream = s.stream ∨ ∃ i r, s.upstream i = .request r ∧
      s'.stream = s.stream ++ emission s.streamDb (s.chosen i) ⟨some r.id, r.cmd⟩ := by
  cases h with
  | execute i r effect hu =>
    obtain ⟨es, hes, hempty | ⟨hem, _⟩⟩ := execute_pending s i r effect
    · left
      rw [State.stream, hes, execute_log, hempty, List.append_nil, State.stream]
    · right
      refine ⟨i, r, hu, ?_⟩
      rw [State.stream, hes, execute_log, hem, State.stream, List.append_assoc]
  | append e rest _ _ hp =>
    left
    simp [State.stream, hp]
  | _ => exact .inl rfl

theorem chosen_step {s s' : State C} {e : Event C} {i : C} (h : Moves s e s') :
    s'.chosen i = s.chosen i ∨ ∃ r, s.upstream i = .request r ∧ r.cmd.selects = some (s'.chosen i) := by
  cases h with
  | execute j r effect hu =>
    rcases execute_chosen s j r effect with hc | ⟨db, hdb, hc⟩
    · exact .inl (by rw [hc])
    · by_cases hij : i = j
      · subst hij
        exact .inr ⟨r, hu, by rw [hc, Function.update_self, hdb]⟩
      · exact .inl (by rw [hc, Function.update_of_ne hij])
  | _ => exact .inl rfl

theorem database_step {s s' : State C} {e : Event C} (h : Moves s e s') :
    s'.database = s.database ∨ ∃ i r, s.proxies i = .replied r ∧ r.cmd.selects = some s'.database := by
  cases h with
  | execute i r effect => exact .inl (execute_database s i r effect)
  | select i r db args hp hs hargs => exact .inr ⟨i, r, hp, by simp [Command.selects, hs, hargs]⟩
  | _ => exact .inl rfl

theorem log_step {s s' : State C} {e : Event C} (h : Moves s e s') :
    s'.log = s.log ∨ ∃ x, s'.log = s.log ++ [(x, s.database)] := by
  cases stream_step h with
  | append x _ _ _ hl _ => exact .inr ⟨x, hl⟩
  | same _ _ hl _ => exact .inl hl
  | lock _ _ _ hl _ => exact .inl hl
  | emit _ _ _ hl _ => exact .inl hl
  | unlock _ _ _ _ hl _ => exact .inl hl

theorem atZero_step {s s' : State C} {e : Event C} (hi : AtZero s) (hr : selectRule s e = true)
    (h : Moves s e s') : AtZero s' := by
  refine ⟨?_, ?_, ?_, ?_, ?_, ?_⟩
  · intro i r hp
    rcases request_step h hp with hp | ⟨cmd, rfl, rfl⟩
    · exact hi.requests i r hp
    · exact hr
  · intro i r hu
    rcases carries_step h hu with hu | hp
    · exact hi.carried i r hu
    · exact hi.requests i r hp
  · intro i
    rcases chosen_step h with hc | ⟨r, hu, hc⟩
    · rw [hc, hi.chosen]
    · exact eq_zero_of_selects (hi.carried i r (by rw [hu, Upstream.carries])) hc
  · rcases database_step h with hd | ⟨i, r, hp, hd⟩
    · rw [hd, hi.database]
    · exact eq_zero_of_selects (hi.requests i r (by rw [hp, Proxy.request])) hd
  · intro x hx
    rcases stream_adds h with hs | ⟨i, r, hu, hs⟩
    · rw [hs] at hx
      exact hi.stream x hx
    · rw [hs, List.mem_append, hi.chosen] at hx
      rcases hx with hx | hx
      · exact hi.stream x hx
      · exact emission_zero (hi.carried i r (by rw [hu, Upstream.carries])) x hx
  · intro d hd
    rcases log_step h with hl | ⟨x, hl⟩
    · rw [hl] at hd
      exact hi.log d hd
    · rw [hl, List.mem_append, List.mem_singleton] at hd
      rcases hd with hd | rfl
      · exact hi.log d hd
      · exact hi.database

/-- **Commands are logged under the database they ran in**, in every run in which no
client selects another than the first. -/
theorem tagged {s : State C} (h : Reach step (fun s e => selectRule s e = true) (initial C) s) : Tagged s := by
  have hinv : AtZero s := by
    refine h.invariant AtZero ⟨?_, ?_, fun _ => rfl, rfl, ?_, ?_⟩
      fun s e s' hi hr hs => atZero_step hi hr (step_moves hs)
    · intro i r hp
      cases hp
    · intro i r hu
      cases hu
    · intro e he
      cases he
    · intro d hd
      cases hd
  exact hinv.tags

/-! ### Two runs -/

theorem tagged_select_zero : ∃ s, Reach step (fun s e => selectRule s e = true) (initial (Fin 2)) s ∧
    s.log = [(⟨none, selectCommand database0⟩, database0), (⟨some 1, setCommand "k" "1"⟩, database0)] ∧
    Tagged s := by
  obtain ⟨s, hs, hl⟩ := exists_reach_of_play step selectRule (fun _ _ h => h) (initial (Fin 2))
    (request 0 (selectCommand database0) true ++ [.deliver 0] ++ request 0 (setCommand "k" "1") true ++
      [.append, .unlock, .append, .unlock])
    (fun s => s.log == [(⟨none, selectCommand database0⟩, database0),
      (⟨some 1, setCommand "k" "1"⟩, database0)]) (by decide)
  exact ⟨s, hs, by simpa using hl, tagged hs⟩

/-- One client writes in database 0; before the stream is handled, another client
selects database 1. -/
def selectOvertakes {C : Type} (i j : C) : List (Event C) :=
  request i (setCommand "k" "1") true ++ request j (selectCommand (ascii "1")) true ++
    [.append, .unlock, .append, .unlock]

/-- **A command can be logged under a database that another client selected.** -/
theorem not_tagged : ¬ ∀ s, Reach step Free (initial (Fin 2)) s → Tagged s := by
  intro hall
  obtain ⟨s, hs, hf⟩ := exists_reach_of_play step (fun _ _ => true) (fun _ _ _ => trivial) (initial (Fin 2))
    (selectOvertakes 0 1) (fun s => s.log == [(⟨none, selectCommand database0⟩, ascii "1"),
      (⟨some 0, setCommand "k" "1"⟩, ascii "1")]) (by decide)
  have htag := hall s hs [(⟨none, selectCommand database0⟩, ascii "1")] ⟨some 0, setCommand "k" "1"⟩
    (ascii "1") [] (by simpa using hf)
  exact absurd htag (by decide)

end

end AnarchoRedis.Txn
