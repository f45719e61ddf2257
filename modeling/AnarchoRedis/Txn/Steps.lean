import AnarchoRedis.Txn.System

/-! What one step of the system can do, said once.

`Moves` lists the steps with what each needs and leaves; `step_moves` is the only
place where `step` is unfolded. `stream_step` is what a step can do to the part
of the state the replication goroutine shares with the proxies: the stream, the
log and the locks. `conn_step` is what it can do to one connection; the lemmas
after it read off where a request can come from. -/
namespace AnarchoRedis.Txn
open Base

section
variable {C : Type} [DecidableEq C]

/-- The steps, each with what it needs of the state before. -/
inductive Moves (s : State C) : Event C → State C → Prop where
  | read (i : C) (cmd : Command) : s.proxies i = .reading →
      Moves s (.read i cmd) {s.setProxy i (.forwarding ⟨s.fresh, cmd⟩) with fresh := s.fresh + 1}
  | forward (i : C) (r : Request) : s.proxies i = .forwarding r → s.upstream i = .idle →
      Moves s (.forward i) ((s.setProxy i (.waiting r)).setUpstream i (.request r))
  | execute (i : C) (r : Request) (effect : Bool) : s.upstream i = .request r →
      Moves s (.execute i effect) (execute s i r effect)
  | reply (i : C) (r r' : Request) : s.proxies i = .waiting r → s.upstream i = .reply r' →
      Moves s (.reply i) ((s.setProxy i (.replied r)).setUpstream i .idle)
  | select (i : C) (r : Request) (db : Bytes) (args : List Bytes) : s.proxies i = .replied r →
      r.cmd.isSelect = true → r.cmd.args = db :: args →
      Moves s (.select i) {s.setProxy i (.selected r) with database := db}
  | noSelect (i : C) (r : Request) : s.proxies i = .replied r → r.cmd.isSelect = false →
      Moves s (.select i) (s.setProxy i (.selected r))
  | lock (i : C) (r : Request) : s.proxies i = .selected r → r.cmd.isWrite = true →
      Moves s (.lock i)
        {s.setProxy i (.awaiting r r.cmd.keys) with locked := lockKeys r.cmd.keys s.locked}
  | noLock (i : C) (r : Request) : s.proxies i = .selected r → r.cmd.isWrite = false →
      Moves s (.lock i) (s.setProxy i (.awaiting r r.cmd.keys))
  | see (i : C) (k : Bytes) (r : Request) (left : List Bytes) : s.proxies i = .awaiting r left →
      s.locked k = false → Moves s (.see i k) (s.setProxy i (.awaiting r (left.filter (· ≠ k))))
  | deliver (i : C) (r : Request) : s.proxies i = .awaiting r [] →
      Moves s (.deliver i) {s.setProxy i .reading with delivered := s.delivered ++ [r]}
  | close (i : C) : Moves s (.close i) (s.setProxy i .closed)
  | append (e : Entry) (rest : List Entry) : s.stopped = false → s.current = none →
      s.pending = e :: rest →
      Moves s .append {s with pending := rest, current := some e, log := s.log ++ [(e, s.database)]}
  | unlock (e : Entry) : s.stopped = false → s.current = some e →
      Moves s .unlock {s with current := none, locked := unlockKeys e.cmd.keys s.locked}
  | stop : Moves s .stop {s with stopped := true}

theorem step_moves {s s' : State C} {e : Event C} (h : step s e = some s') : Moves s e s' := by
  cases e with
  | read i cmd =>
    simp only [step] at h
    split at h
    · cases h
      exact .read i cmd ‹_›
    · cases h
  | forward i =>
    simp only [step] at h
    split at h
    · cases h
      exact .forward i _ ‹_› ‹_›
    · cases h
  | execute i effect =>
    simp only [step] at h
    split at h
    · cases h
      exact .execute i _ effect ‹_›
    · cases h
  | reply i =>
    simp only [step] at h
    split at h
    · cases h
      exact .reply i _ _ ‹_› ‹_›
    · cases h
  | select i =>
    simp only [step] at h
    split at h
    · split at h
      · split at h
        · cases h
        · cases h
          exact .select i _ _ _ ‹_› ‹_› ‹_›
      · cases h
        exact .noSelect i _ ‹_› (eq_false_of_ne_true ‹_›)
    · cases h
  | lock i =>
    simp only [step] at h
    split at h
    · split at h
      · cases h
        exact .lock i _ ‹_› ‹_›
      · cases h
        exact .noLock i _ ‹_› (eq_false_of_ne_true ‹_›)
    · cases h
  | see i k =>
    simp only [step] at h
    split at h
    · split at h
      · cases h
      · cases h
        exact .see i k _ _ ‹_› (eq_false_of_ne_true ‹_›)
    · cases h
  | deliver i =>
    simp only [step] at h
    split at h
    · cases h
      exact .deliver i _ ‹_›
    · cases h
  | close i =>
    cases h
    exact .close i
  | append =>
    simp only [step] at h
    split at h
    · cases h
      exact .append _ _ ‹_› ‹_› ‹_›
    · cases h
  | unlock =>
    simp only [step] at h
    split at h
    · cases h
      exact .unlock _ ‹_› ‹_›
    · cases h
  | stop =>
    cases h
    exact .stop

/-! ### Executing a request -/

/-- The leader's own state and the reply are all that changes. -/
theorem execute_frame (s : State C) (i : C) (r : Request) (effect : Bool) :
    execute s i r effect =
      {s.setUpstream i (.reply r) with
        executed := s.executed ++ [r]
        chosen := (execute s i r effect).chosen
        streamDb := (execute s i r effect).streamDb
        pending := (execute s i r effect).pending} := by
  unfold execute
  repeat' split
  all_goals rfl

theorem execute_proxies (s : State C) (i : C) (r : Request) (effect : Bool) :
    (execute s i r effect).proxies = s.proxies := by
  rw [execute_frame]
  rfl

theorem execute_upstream (s : State C) (i : C) (r : Request) (effect : Bool) :
    (execute s i r effect).upstream = Function.update s.upstream i (.reply r) := by
  rw [execute_frame]
  rfl

theorem execute_executed (s : State C) (i : C) (r : Request) (effect : Bool) :
    (execute s i r effect).executed = s.executed ++ [r] := by
  rw [execute_frame]

theorem execute_log (s : State C) (i : C) (r : Request) (effect : Bool) :
    (execute s i r effect).log = s.log := by
  rw [execute_frame]
  rfl

theorem execute_current (s : State C) (i : C) (r : Request) (effect : Bool) :
    (execute s i r effect).current = s.current := by
  rw [execute_frame]
  rfl

theorem execute_locked (s : State C) (i : C) (r : Request) (effect : Bool) :
    (execute s i r effect).locked = s.locked := by
  rw [execute_frame]
  rfl

theorem execute_delivered (s : State C) (i : C) (r : Request) (effect : Bool) :
    (execute s i r effect).delivered = s.delivered := by
  rw [execute_frame]
  rfl

theorem execute_database (s : State C) (i : C) (r : Request) (effect : Bool) :
    (execute s i r effect).database = s.database := by
  rw [execute_frame]
  rfl

/-- The leader only ever adds to the end of its stream, and adds no client's `SELECT`. -/
theorem execute_pending (s : State C) (i : C) (r : Request) (effect : Bool) :
    ∃ es, (execute s i r effect).pending = s.pending ++ es ∧
      (es = [] ∨ (es = emission s.streamDb (s.chosen i) ⟨some r.id, r.cmd⟩ ∧ r.cmd.isSelect = false)) := by
  unfold execute
  repeat' split
  · exact ⟨[], by simp [State.setUpstream], .inl rfl⟩
  · exact ⟨[], by simp [State.setUpstream], .inl rfl⟩
  · exact ⟨_, rfl, .inr ⟨rfl, eq_false_of_ne_true ‹_›⟩⟩
  · exact ⟨[], by simp [State.setUpstream], .inl rfl⟩

/-- A connection changes database by a `SELECT` on it. -/
theorem execute_chosen (s : State C) (i : C) (r : Request) (effect : Bool) :
    (execute s i r effect).chosen = s.chosen ∨
      ∃ db, r.cmd.selects = some db ∧ (execute s i r effect).chosen = Function.update s.chosen i db := by
  unfold execute
  repeat' split
  · exact .inl rfl
  · rename_i hs _ db args hargs
    exact .inr ⟨db, by simp [Command.selects, hs, hargs], rfl⟩
  · exact .inl rfl
  · exact .inl rfl

/-! ### The stream, the log and the locks -/

/-- What a step can do to what the replication goroutine shares with the proxies. -/
inductive StreamStep (s s' : State C) : Prop where
  | same : s'.pending = s.pending → s'.current = s.current → s'.log = s.log → s'.locked = s.locked →
      StreamStep s s'
  | lock (keys : List Bytes) : s'.pending = s.pending → s'.current = s.current → s'.log = s.log →
      s'.locked = lockKeys keys s.locked → StreamStep s s'
  | emit (es : List Entry) : s'.pending = s.pending ++ es → s'.current = s.current → s'.log = s.log →
      s'.locked = s.locked → StreamStep s s'
  | append (e : Entry) : s.current = none → s.pending = e :: s'.pending → s'.current = some e →
      s'.log = s.log ++ [(e, s.database)] → s'.locked = s.locked → StreamStep s s'
  | unlock (e : Entry) : s.current = some e → s'.pending = s.pending → s'.current = none →
      s'.log = s.log → s'.locked = unlockKeys e.cmd.keys s.locked → StreamStep s s'

theorem stream_step {s s' : State C} {e : Event C} (h : Moves s e s') : StreamStep s s' := by
  cases h with
  | execute i r effect hu =>
    obtain ⟨es, hes, _⟩ := execute_pending s i r effect
    exact .emit es hes (execute_current ..) (execute_log ..) (execute_locked ..)
  | lock i r hp hw => exact .lock r.cmd.keys rfl rfl rfl rfl
  | append e rest _ hc hp => exact .append e hc hp rfl rfl rfl
  | unlock e _ hc => exact .unlock e hc rfl rfl rfl rfl
  | _ => exact .same rfl rfl rfl rfl

/-- What is appended stays appended. -/
theorem appended_step {s s' : State C} {e : Event C} {id : Nat} (h : Moves s e s')
    (ha : s.appended id = true) : s'.appended id = true := by
  have hlog : ∃ ds, s'.log = s.log ++ ds := by
    cases stream_step h with
    | append e _ _ _ hl _ => exact ⟨_, hl⟩
    | same _ _ hl _ => exact ⟨[], by rw [hl, List.append_nil]⟩
    | lock _ _ _ hl _ => exact ⟨[], by rw [hl, List.append_nil]⟩
    | emit _ _ _ hl _ => exact ⟨[], by rw [hl, List.append_nil]⟩
    | unlock _ _ _ _ hl _ => exact ⟨[], by rw [hl, List.append_nil]⟩
  obtain ⟨ds, hds⟩ := hlog
  unfold State.appended at ha ⊢
  rw [hds, List.any_append, ha, Bool.true_or]

/-! ### One connection -/

/-- The request a proxy has read and not yet sent. -/
def Proxy.unsent : Proxy → Option Request
  | .forwarding r => some r
  | _ => none

/-- The request the leader has been sent and has not yet executed. -/
def Upstream.unexecuted : Upstream → Option Request
  | .request r => some r
  | _ => none

/-- The request a proxy is busy with. -/
def Proxy.request : Proxy → Option Request
  | .forwarding r | .waiting r | .replied r | .selected r | .awaiting r _ => some r
  | .reading | .closed => none

/-- The request an upstream connection carries, or carries the reply to. -/
def Upstream.carries : Upstream → Option Request
  | .request r | .reply r => some r
  | .idle => none

/-- The request a proxy has the leader's reply to. -/
def Proxy.answered : Proxy → Option Request
  | .replied r | .selected r | .awaiting r _ => some r
  | _ => none

/-- What a step can do to one connection: to its run of `proxy`, and to what is on
its way to the leader or back. -/
inductive ConnStep (s : State C) (i : C) (e : Event C) (p : Proxy) (u : Upstream) : Prop where
  | same : p = s.proxies i → u = s.upstream i → ConnStep s i e p u
  | read (cmd : Command) : e = .read i cmd → s.proxies i = .reading → p = .forwarding ⟨s.fresh, cmd⟩ →
      u = s.upstream i → ConnStep s i e p u
  | forward (r : Request) : s.proxies i = .forwarding r → p = .waiting r → u = .request r → ConnStep s i e p u
  | execute (r : Request) (effect : Bool) : e = .execute i effect → s.upstream i = .request r →
      p = s.proxies i → u = .reply r → ConnStep s i e p u
  | reply (r r' : Request) : s.proxies i = .waiting r → s.upstream i = .reply r' → p = .replied r → u = .idle →
      ConnStep s i e p u
  | select (r : Request) : s.proxies i = .replied r → p = .selected r → u = s.upstream i → ConnStep s i e p u
  | lock (r : Request) : e = .lock i → s.proxies i = .selected r → p = .awaiting r r.cmd.keys →
      u = s.upstream i → ConnStep s i e p u
  | see (k : Bytes) (r : Request) (left : List Bytes) : s.proxies i = .awaiting r left → s.locked k = false →
      p = .awaiting r (left.filter (· ≠ k)) → u = s.upstream i → ConnStep s i e p u
  | deliver (r : Request) : s.proxies i = .awaiting r [] → p = .reading → u = s.upstream i → ConnStep s i e p u
  | close : p = .closed → u = s.upstream i → ConnStep s i e p u

/-- A step of one connection leaves the others as they are. -/
theorem ConnStep.update {s : State C} {e : Event C} {j : C} {p : Proxy} {u : Upstream} (h : ConnStep s j e p u)
    (i : C) : ConnStep s i e (Function.update s.proxies j p i) (Function.update s.upstream j u i) := by
  by_cases hij : i = j
  · rw [hij, Function.update_self, Function.update_self]
    exact h
  · exact .same (Function.update_of_ne hij ..) (Function.update_of_ne hij ..)

theorem ConnStep.proxy {s : State C} {e : Event C} {j : C} {p : Proxy} (h : ConnStep s j e p (s.upstream j))
    (i : C) : ConnStep s i e (Function.update s.proxies j p i) (s.upstream i) := by
  have hi := h.update i
  rwa [Function.update_eq_self] at hi

theorem conn_step {s s' : State C} {e : Event C} (h : Moves s e s') (i : C) :
    ConnStep s i e (s'.proxies i) (s'.upstream i) := by
  cases h with
  | read j cmd hp => exact (ConnStep.read cmd rfl hp rfl rfl).proxy i
  | forward j r hp _ => exact (ConnStep.forward r hp rfl rfl).update i
  | execute j r effect hu =>
    have hi := (ConnStep.execute r effect rfl hu rfl rfl : ConnStep s j _ _ _).update i
    rw [Function.update_eq_self] at hi
    rw [execute_proxies, execute_upstream]
    exact hi
  | reply j r r' hp hu => exact (ConnStep.reply r r' hp hu rfl rfl).update i
  | select j r _ _ hp | noSelect j r hp => exact (ConnStep.select r hp rfl rfl).proxy i
  | lock j r hp | noLock j r hp => exact (ConnStep.lock r rfl hp rfl rfl).proxy i
  | see j k r left hp hk => exact (ConnStep.see k r left hp hk rfl rfl).proxy i
  | deliver j r hp => exact (ConnStep.deliver r hp rfl rfl).proxy i
  | close j => exact (ConnStep.close rfl rfl).proxy i
  | append | unlock | stop => exact .same rfl rfl

/-- A proxy's requests are those it has read. -/
theorem request_step {s s' : State C} {e : Event C} {i : C} {r : Request} (h : Moves s e s')
    (hr : (s'.proxies i).request = some r) :
    (s.proxies i).request = some r ∨ ∃ cmd, e = .read i cmd ∧ r = ⟨s.fresh, cmd⟩ := by
  cases conn_step h i with
  | same hp _ | execute _ _ _ _ hp _ =>
    rw [hp] at hr
    exact .inl hr
  | read cmd he _ hp _ =>
    rw [hp] at hr
    exact .inr ⟨cmd, he, (Option.some.inj hr).symm⟩
  | forward x hx hp _ | reply x _ hx _ hp _ | select x hx hp _ | lock x _ hx hp _ | see _ x _ hx _ hp _ =>
    rw [hp] at hr
    rw [hx]
    exact .inl hr
  | deliver _ _ hp _ | close hp _ =>
    rw [hp] at hr
    cases hr

/-- An upstream connection carries what its proxy was busy with. -/
theorem carries_step {s s' : State C} {e : Event C} {i : C} {r : Request} (h : Moves s e s')
    (hr : (s'.upstream i).carries = some r) :
    (s.upstream i).carries = some r ∨ (s.proxies i).request = some r := by
  cases conn_step h i with
  | forward x hx _ hu =>
    rw [hu] at hr
    rw [hx]
    exact .inr hr
  | execute x _ _ hx _ hu =>
    rw [hu] at hr
    rw [hx]
    exact .inl hr
  | reply _ _ _ _ _ hu =>
    rw [hu] at hr
    cases hr
  | same _ hu | read _ _ _ _ hu | select _ _ _ hu | lock _ _ _ _ hu | see _ _ _ _ _ _ hu | deliver _ _ _ hu
  | close _ hu =>
    rw [hu] at hr
    exact .inl hr

theorem unsent_step {s s' : State C} {e : Event C} {i : C} {w : Request} (h : Moves s e s')
    (hw : (s'.proxies i).unsent = some w) :
    (s.proxies i).unsent = some w ∨ ∃ cmd, e = .read i cmd ∧ w = ⟨s.fresh, cmd⟩ := by
  cases conn_step h i with
  | same hp _ | execute _ _ _ _ hp _ =>
    rw [hp] at hw
    exact .inl hw
  | read cmd he _ hp _ =>
    rw [hp] at hw
    exact .inr ⟨cmd, he, (Option.some.inj hw).symm⟩
  | forward _ _ hp _ | reply _ _ _ _ hp _ | select _ _ hp _ | lock _ _ _ hp _ | see _ _ _ _ _ hp _
  | deliver _ _ hp _ | close hp _ =>
    rw [hp] at hw
    cases hw

theorem unexecuted_step {s s' : State C} {e : Event C} {i : C} {w : Request} (h : Moves s e s')
    (hw : (s'.upstream i).unexecuted = some w) :
    (s.upstream i).unexecuted = some w ∨ (s.proxies i).unsent = some w := by
  cases conn_step h i with
  | forward x hx _ hu =>
    rw [hu] at hw
    rw [hx]
    exact .inr hw
  | execute _ _ _ _ _ hu | reply _ _ _ _ _ hu =>
    rw [hu] at hw
    cases hw
  | same _ hu | read _ _ _ _ hu | select _ _ _ hu | lock _ _ _ _ hu | see _ _ _ _ _ _ hu | deliver _ _ _ hu
  | close _ hu =>
    rw [hu] at hw
    exact .inl hw

/-- The leader executes what it has been sent. -/
theorem executed_step {s s' : State C} {e : Event C} (h : Moves s e s') :
    s'.executed = s.executed ∨ ∃ i r, s.upstream i = .request r ∧ s'.executed = s.executed ++ [r] := by
  cases h with
  | execute i r effect hu => exact .inr ⟨i, r, hu, execute_executed ..⟩
  | _ => exact .inl rfl

/-- How a connection comes to be in `AwaitUnlocked` with some keys left. -/
theorem awaiting_step {s s' : State C} {e : Event C} {i : C} {r : Request} {left : List Bytes}
    (h : Moves s e s') (hr : s'.proxies i = .awaiting r left) :
    s.proxies i = .awaiting r left ∨ (e = .lock i ∧ s.proxies i = .selected r ∧ left = r.cmd.keys) ∨
      ∃ k before, s.proxies i = .awaiting r before ∧ s.locked k = false ∧ left = before.filter (· ≠ k) := by
  cases conn_step h i with
  | same hp _ | execute _ _ _ _ hp _ => exact .inl (by rw [← hp, hr])
  | lock x he hx hp _ =>
    rw [hp] at hr
    cases hr
    exact .inr (.inl ⟨he, hx, rfl⟩)
  | see k x before hx hk hp _ =>
    rw [hp] at hr
    cases hr
    exact .inr (.inr ⟨k, before, hx, hk, rfl⟩)
  | read _ _ _ hp _ | forward _ _ hp _ | reply _ _ _ _ hp _ | select _ _ hp _ | deliver _ _ hp _ | close hp _ =>
    rw [hp] at hr
    cases hr

/-- A proxy has the reply to the request it waited with. -/
theorem answered_step {s s' : State C} {e : Event C} {i : C} {r : Request} (h : Moves s e s')
    (hr : (s'.proxies i).answered = some r) :
    (s.proxies i).answered = some r ∨ ∃ r', s.proxies i = .waiting r ∧ s.upstream i = .reply r' := by
  cases conn_step h i with
  | same hp _ | execute _ _ _ _ hp _ =>
    rw [hp] at hr
    exact .inl hr
  | reply x x' hx hu hp _ =>
    rw [hp] at hr
    cases hr
    exact .inr ⟨x', hx, hu⟩
  | select x hx hp _ | lock x _ hx hp _ | see _ x _ hx _ hp _ =>
    rw [hp] at hr
    rw [hx]
    exact .inl hr
  | read _ _ _ hp _ | forward _ _ hp _ | deliver _ _ hp _ | close hp _ =>
    rw [hp] at hr
    cases hr

/-- What a proxy waits for is on its connection, as a request or as the reply. -/
def Paired (s : State C) : Prop :=
  ∀ i r, s.proxies i = .waiting r → s.upstream i = .request r ∨ s.upstream i = .reply r

theorem paired_step {s s' : State C} {e : Event C} (hi : Paired s) (h : Moves s e s') : Paired s' := by
  intro i r hr
  cases conn_step h i with
  | same hp hu =>
    rw [hp] at hr
    rw [hu]
    exact hi i r hr
  | forward x _ hp hu =>
    rw [hp] at hr
    cases hr
    exact .inl hu
  | execute x _ _ hx hp hu =>
    rw [hp] at hr
    have hcarried := hi i r hr
    simp only [hx, Upstream.request.injEq, reduceCtorEq, or_false] at hcarried
    rw [hu, hcarried]
    exact .inr rfl
  | read _ _ _ hp _ | reply _ _ _ _ hp _ | select _ _ hp _ | lock _ _ _ hp _ | see _ _ _ _ _ hp _
  | deliver _ _ hp _ | close hp _ =>
    rw [hp] at hr
    cases hr

/-- A reply reaches its client when nothing is left to wait for. -/
theorem delivered_step {s s' : State C} {e : Event C} (h : Moves s e s') :
    s'.delivered = s.delivered ∨
      ∃ i r, s.proxies i = .awaiting r [] ∧ s'.delivered = s.delivered ++ [r] := by
  cases h with
  | execute => exact .inl (execute_delivered ..)
  | deliver i r hp => exact .inr ⟨i, r, hp, rfl⟩
  | _ => exact .inl rfl

end

/-! ### Requests to build runs from -/

/-- `SET k v`. -/
def setCommand (k v : String) : Command := ⟨ascii "SET", [ascii k, ascii v], [ascii k]⟩

/-- `GET k`. -/
def getCommand (k : String) : Command := ⟨ascii "GET", [ascii k], [ascii k]⟩

/-- One connection's request, up to and including its `LockKeys`. -/
def request {C : Type} (i : C) (cmd : Command) (effect : Bool) : List (Event C) :=
  [.read i cmd, .forward i, .execute i effect, .reply i, .select i, .lock i]

end AnarchoRedis.Txn
