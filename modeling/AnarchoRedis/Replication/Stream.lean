import AnarchoRedis.Replication.Steps

/-! One stream: what is passed on, and what is logged.

The read loop and the goroutine that acknowledges read from one connection. The
leader does not answer an acknowledgement, so the read that follows one takes
whatever comes next on the stream, and no one passes that on. `faithful`: where
such a read never finds a command, and the loop is never given an array without
elements, every command is passed to the callback once and in order.

Whatever fails and whenever the context is cancelled, what one call has logged is
the beginning of what it has passed on, and it has unlocked the keys of that, the
last command perhaps excepted (`gapFree`). -/
namespace AnarchoRedis.Replication
open Base Protocol

/-- Read and not yet passed on. -/
def Call.held (c : Call) : List Msg :=
  match c.loop with
  | .got m => [m]
  | _ => []

/-- Neither left nor crashed. -/
def Loop.live : Loop → Bool
  | .leaving _ | .draining _ | .done | .crashed => false
  | _ => true

/-- The commands on the connection are those passed on and those still to be read,
in order; and the loop is alive to read them. -/
structure Faithful (c : Call) : Prop where
  live : c.loop.live = true
  passed : c.passed.filter Msg.isData ++ (c.held ++ c.inbox).filter Msg.isData = c.received.filter Msg.isData

/-- A message that neither ends nor crashes the loop. -/
def Msg.benign (m : Msg) : Bool :=
  match dispatch m with
  | .crash _ | .fail | .badResync _ => false
  | _ => true

/-- A command is passed on. -/
theorem dispatch_data {m : Msg} (h : m.isData = true) : dispatch m = .call := by
  unfold Msg.isData at h
  unfold dispatch
  cases hk : m.kind with
  | array =>
    cases ha : m.array with
    | nil => simp [hk, ha] at h
    | cons name rest =>
      simp only [hk, ha, List.head?_cons, Option.any_some, BEq.rfl, Bool.true_and, Bool.and_eq_true,
        bne_iff_ne] at h
      simp only [ne_eq, h.1, not_false_eq_true, if_true]
  | _ => simp [hk] at h

section
variable {C : Type}

/-! ### What is assumed, and what is asked -/

/-- No read and no callback fails, and the context lives. -/
def callAssumed : CallEvent → Bool
  | .loop ok => ok
  | .connect replies => !replies.isEmpty && replies.all fun m => !m.isData
  | .ack _ => true
  | .cancel => false

/-- The leader answers `PSYNC` and then sends arrays. -/
def assumed (_ : State C) : Event C → Bool
  | .call _ e => callAssumed e
  | .emit m => m.kind == .array
  | .select _ => true

/-- Asked of the reads: the loop finds nothing that ends it, the read after an
acknowledgement finds no command. -/
def readsApart (c : Call) : CallEvent → Bool
  | .loop _ => c.loop != .reading || c.inbox.head?.all Msg.benign
  | .ack ok => !ok || c.ack != .reading || c.inbox.head?.all fun m => !m.isData
  | _ => true

def apartRule (s : State C) : Event C → Bool
  | .call i e => callAssumed e && readsApart (s.calls i) e
  | e => assumed s e

/-! ### No command is lost or reordered -/

/-- On the way to the loop. -/
def Loop.starting : Loop → Bool
  | .idle | .dialing | .connected => true
  | _ => false

/-- A call whose reads keep apart. -/
structure Steady (c : Call) : Prop where
  keeps : Faithful c
  context : c.cancelled = false
  offline : c.loop.online = false → c.inbox = []
  silent : c.loop.starting = true → c.ack = .off
  /-- The first message on a new connection answers the handshake. -/
  greeted : c.loop = .connected → ∃ m rest, c.inbox = m :: rest ∧ m.isData = false
  benign : ∀ m, c.loop = .got m → m.benign = true

variable {keys : Msg → List Bytes} {sh sh' : Shared} {c c' : Call}

/-- A loop that meets nothing that ends it is not left. -/
theorem Steady.not_leaves (hi : Steady c) : ¬ Leaves c true := by
  rintro (hok | hc | ⟨m, hl, hd⟩)
  · cases hok
  · rw [hi.context] at hc
    cases hc
  · have hb := hi.benign m hl
    unfold Msg.benign at hb
    rcases hd with hd | ⟨id, hd⟩
    · simp [hd] at hb
    · simp [hd] at hb

theorem held_of_loop {l : Loop} (h : ∀ m, l ≠ .got m) : {c with loop := l}.held = [] := by
  unfold Call.held
  split
  · rename_i m hl
    exact absurd hl (h m)
  · rfl

/-- A step of the loop that leaves the connection alone, with no command in hand. -/
theorem Steady.move (hi : Steady c) {l : Loop} (hlive : l.live = true) (hgot : ∀ m, l ≠ .got m)
    (hstart : l.starting = true → c.ack = .off ∧ l ≠ .connected) (hoff : l.online = false → c.inbox = [])
    (hheld : c.held.filter Msg.isData = []) : Steady {c with loop := l} := by
  refine ⟨⟨hlive, ?_⟩, hi.context, hoff, fun hs => (hstart hs).1, ?_, fun m hm => absurd hm (hgot m)⟩
  · have hpassed := hi.keeps.passed
    rw [List.filter_append, hheld, List.nil_append] at hpassed
    rw [held_of_loop hgot, List.nil_append]
    exact hpassed
  · intro hl
    exact absurd hl (hstart (by rw [show l = .connected from hl, Loop.starting])).2

theorem held_nil (h : ∀ m, c.loop ≠ .got m) : c.held.filter Msg.isData = [] := by
  rw [show c.held = [] from held_of_loop (c := c) h, List.filter_nil]

theorem held_got {m : Msg} (h : c.loop = .got m) : c.held = [m] := by
  rw [Call.held, h]

/-- A message in hand that is not passed on is no command. -/
theorem held_skipped {m : Msg} (h : c.loop = .got m) (hd : dispatch m ≠ .call) :
    c.held.filter Msg.isData = [] := by
  have hm : m.isData = false := by
    cases hb : m.isData
    · rfl
    · exact absurd (dispatch_data hb) hd
  rw [held_got h, List.filter_cons_of_neg (by simp [hm]), List.filter_nil]

theorem steady_loop (hi : Steady c) (hr : readsApart c (.loop true) = true) (h : LoopMoves keys sh c true sh' c') :
    Steady c' := by
  have hlive := hi.keeps.live
  cases h with
  | refuse hl _ =>
    exact hi.move rfl (by simp) (by simp [Loop.starting]) (fun _ => hi.offline (by rw [hl, Loop.online]))
      (held_nil (by simp [hl]))
  | dial hl _ =>
    exact hi.move rfl (by simp) (fun _ => ⟨hi.silent (by rw [hl, Loop.starting]), by simp⟩)
      (fun _ => hi.offline (by rw [hl, Loop.online])) (held_nil (by simp [hl]))
  | giveUp _ hok => cases hok
  | start m rest hl hin =>
    obtain ⟨m', rest', hin', hm⟩ := hi.greeted hl
    rw [hin, List.cons.injEq] at hin'
    obtain ⟨rfl, rfl⟩ := hin'
    have hpassed := hi.keeps.passed
    rw [List.filter_append, held_nil (by simp [hl]), List.nil_append, hin,
      List.filter_cons_of_neg (by simp [hm])] at hpassed
    refine ⟨⟨rfl, hpassed⟩, hi.context, ?_, ?_, ?_, ?_⟩ <;> simp [Loop.online, Loop.starting]
  | turn hl =>
    exact hi.move rfl (by simp) (by simp [Loop.starting]) (by simp [Loop.online]) (held_nil (by simp [hl]))
  | take m rest hl _ hin =>
    have hpassed := hi.keeps.passed
    rw [List.filter_append, held_nil (by simp [hl]), List.nil_append, hin] at hpassed
    have hm : m.benign = true := by simpa [readsApart, hl, hin] using hr
    refine ⟨⟨rfl, hpassed⟩, hi.context, ?_, ?_, ?_, ?_⟩
    · simp [Loop.online]
    · simp [Loop.starting]
    · simp
    · intro m' hm'
      cases hm'
      exact hm
  | crash m _ hl hd =>
    have hb := hi.benign m hl
    simp [Msg.benign, hd] at hb
  | resync m id offset hl hd =>
    exact hi.move rfl (by simp) (by simp [Loop.starting]) (by simp [Loop.online])
      (held_skipped hl (by simp [hd]))
  | pass m hl hd =>
    have hpassed := hi.keeps.passed
    rw [held_got hl, List.filter_append, ← List.append_assoc, ← List.filter_append] at hpassed
    refine ⟨⟨rfl, ?_⟩, hi.context, ?_, ?_, ?_, ?_⟩
    · rw [show Call.held _ = [] from rfl, List.nil_append]
      exact hpassed
    all_goals simp [Loop.online, Loop.starting]
  | skip m hl hd =>
    exact hi.move rfl (by simp) (by simp [Loop.starting]) (by simp [Loop.online])
      (held_skipped hl (by simp [hd]))
  | advance m p p' hl _ | append m hl | unlock m hl | finish m hl | count m hl =>
    exact hi.move rfl (by simp) (by simp [Loop.starting]) (by simp [Loop.online]) (held_nil (by simp [hl]))
  | leave id _ hleaves => exact absurd hleaves hi.not_leaves
  | lastWrite _ hl | lastRead _ _ hl =>
    rw [hl] at hlive
    cases hlive
  | lastFail _ hl =>
    rcases hl with hl | hl
    · rw [hl] at hlive
      cases hlive
    · rw [hl] at hlive
      cases hlive

/-- The leader's answers are no commands. -/
theorem connect_noData {replies : List Msg} (h : callAssumed (.connect replies) = true) :
    replies.filter Msg.isData = [] := by
  rw [List.filter_eq_nil_iff]
  intro m hm
  simp only [callAssumed, Bool.and_eq_true, List.all_eq_true] at h
  simpa using h.2 m hm

theorem steady_call {e : CallEvent} (hi : Steady c) (ha : callAssumed e = true) (hr : readsApart c e = true)
    (h : CallMoves keys sh c e sh' c') : Steady c' := by
  cases h with
  | loop hloop =>
    rw [callAssumed] at ha
    subst ha
    exact steady_loop hi hr hloop
  | connect replies hl =>
    have hin : c.inbox = [] := hi.offline (by rw [hl, Loop.online])
    have hdata := connect_noData ha
    simp only [callAssumed, Bool.and_eq_true, Bool.not_eq_true', List.isEmpty_eq_false_iff, List.all_eq_true] at ha
    have hpassed := hi.keeps.passed
    rw [List.filter_append, held_nil (by simp [hl]), List.nil_append, hin] at hpassed
    refine ⟨⟨rfl, ?_⟩, hi.context, ?_, fun _ => hi.silent (by rw [hl, Loop.starting]), ?_, ?_⟩
    · rw [show Call.held _ = [] from rfl, List.nil_append, hin, List.nil_append, List.filter_append, hdata,
        List.append_nil, List.append_nil, ← hpassed, List.filter_nil, List.append_nil]
    · simp [Loop.online]
    · intro _
      obtain ⟨m, rest, hcons⟩ := List.exists_cons_of_ne_nil ha.1
      refine ⟨m, rest, by rw [hin, hcons]; rfl, ?_⟩
      simpa using ha.2 m (by rw [hcons]; exact List.mem_cons_self ..)
    · simp
  | ack ok a acks hoff =>
    exact ⟨⟨hi.keeps.live, hi.keeps.passed⟩, hi.context, hi.offline, fun hs => absurd (hi.silent hs) hoff, hi.greeted, hi.benign⟩
  | ackRead m rest hack hin =>
    have hm : m.isData = false := by simpa [readsApart, hack, hin] using hr
    have hstart : c.loop.starting ≠ true := by
      intro hs
      rw [hi.silent hs] at hack
      cases hack
    have hpassed := hi.keeps.passed
    rw [List.filter_append, hin, List.filter_cons_of_neg (by simp [hm]), ← List.filter_append] at hpassed
    refine ⟨⟨hi.keeps.live, hpassed⟩, hi.context, ?_, fun hs => absurd hs hstart, ?_, hi.benign⟩
    · intro hl
      have hnil := hi.offline hl
      rw [hin] at hnil
      cases hnil
    · intro hl
      exact absurd (by rw [show c.loop = .connected from hl, Loop.starting]) hstart
  | cancel => cases ha

theorem steady_receive {m : Msg} (hi : Steady c) : Steady (c.receive m) := by
  unfold Call.receive
  split
  · rename_i hon
    refine ⟨⟨hi.keeps.live, ?_⟩, hi.context, ?_, hi.silent, ?_, hi.benign⟩
    · show c.passed.filter _ ++ (c.held ++ (c.inbox ++ [m])).filter _ = (c.received ++ [m]).filter _
      rw [← List.append_assoc c.held, List.filter_append _ [m], ← List.append_assoc, hi.keeps.passed,
        List.filter_append]
    · intro hoff
      rw [show c.loop.online = false from hoff] at hon
      cases hon
    · intro hl
      obtain ⟨m', rest, hin, hm⟩ := hi.greeted hl
      exact ⟨m', rest ++ [m], by rw [hin]; rfl, hm⟩
  · exact hi

theorem steady_initial : Steady {} := by
  refine ⟨⟨rfl, rfl⟩, rfl, fun _ => rfl, fun _ => rfl, ?_, ?_⟩
  · intro h
    cases h
  · intro m h
    cases h

variable [DecidableEq C]

theorem steady_step {s s' : State C} {e : Event C} (hi : ∀ i, Steady (s.calls i)) (hr : apartRule s e = true)
    (h : Moves keys s e s') (i : C) : Steady (s'.calls i) := by
  cases h with
  | call j hcall =>
    simp only [apartRule, Bool.and_eq_true] at hr
    by_cases hij : i = j
    · subst hij
      simp only [Function.update_self]
      exact steady_call (hi i) hr.1 hr.2 hcall
    · simp only [Function.update_of_ne hij]
      exact hi i
  | emit m => exact steady_receive (hi i)
  | select db => exact hi i

/-- **No command is lost or reordered** on any connection, in every run in which the
reads keep apart. -/
theorem faithful {s : State C} (h : Reach (step keys) (fun s e => apartRule s e = true) {} s) (i : C) :
    Faithful (s.calls i) := by
  have hinv : ∀ i, Steady (s.calls i) := by
    refine h.invariant (fun s => ∀ i, Steady (s.calls i)) (fun _ => steady_initial) ?_
    exact fun s e s' hi hr hs => steady_step hi hr (step_moves hs)
  exact (hinv i).keeps

/-! ### The log is a prefix -/

end

/-- The message in the callback that is not yet appended. -/
def Loop.pending : Loop → List Msg
  | .handling m .entered | .handling m .checked | .handling m .named | .handling m .keyed => [m]
  | _ => []

/-- The message in the callback that is appended and whose keys are not yet unlocked. -/
def Loop.locked : Loop → List Msg
  | .handling m .appended => [m]
  | _ => []

/-- What is logged is the beginning of what was passed on; what `UnlockKeys` removed
are the keys of the beginning of what is logged, of all but the last at least. -/
structure GapFree (keys : Msg → List Bytes) (sh : Shared) (c : Call) : Prop where
  log : sh.log.map Prod.fst <+: c.passed
  removed : sh.removed <+: sh.log.map fun d => keys d.1
  last : sh.log.length ≤ sh.removed.length + 1

/-- What is passed on and not logged, and what is logged and not unlocked, is what the
callback has in hand; when the loop was left with an error it is at most one. -/
structure Tracks (keys : Msg → List Bytes) (sh : Shared) (c : Call) : Prop where
  log : ∃ rest, c.passed = sh.log.map Prod.fst ++ rest ∧ rest.length ≤ 1 ∧
    (c.loop.live = true → rest = c.loop.pending)
  removed : ∃ rest, (sh.log.map fun d => keys d.1) = sh.removed ++ rest.map keys ∧ rest.length ≤ 1 ∧
    (c.loop.live = true → rest = c.loop.locked)

section
variable {keys : Msg → List Bytes} {sh sh' : Shared} {c c' : Call}

theorem Tracks.noGap (h : Tracks keys sh c) : GapFree keys sh c := by
  obtain ⟨rest, hpassed, _, _⟩ := h.log
  obtain ⟨rest', hremoved, hlen, _⟩ := h.removed
  refine ⟨⟨rest, hpassed.symm⟩, ⟨_, hremoved.symm⟩, ?_⟩
  have := congrArg List.length hremoved
  rw [List.length_map, List.length_append, List.length_map] at this
  omega

/-- A step that touches neither the log nor what the callback has in hand. -/
theorem Tracks.move (hi : Tracks keys sh c) (hlog : sh'.log = sh.log) (hremoved : sh'.removed = sh.removed)
    (hpassed : c'.passed = c.passed)
    (hl : c'.loop.live = true →
      c.loop.live = true ∧ c'.loop.pending = c.loop.pending ∧ c'.loop.locked = c.loop.locked) :
    Tracks keys sh' c' := by
  obtain ⟨rest, hp, hlen, hlive⟩ := hi.log
  obtain ⟨rest', hr, hlen', hlive'⟩ := hi.removed
  refine ⟨⟨rest, by rw [hpassed, hlog, hp], hlen, fun h => ?_⟩, ⟨rest', by rw [hlog, hremoved, hr], hlen', fun h => ?_⟩⟩
  · rw [hlive (hl h).1, (hl h).2.1]
  · rw [hlive' (hl h).1, (hl h).2.2]

/-- While the loop is alive the lists are exact. -/
theorem Tracks.live (hi : Tracks keys sh c) {l : Loop} (hl : c.loop = l) (h : l.live = true) :
    c.passed = sh.log.map Prod.fst ++ l.pending ∧
      (sh.log.map fun d => keys d.1) = sh.removed ++ l.locked.map keys := by
  subst hl
  obtain ⟨rest, hp, _, hrest⟩ := hi.log
  obtain ⟨rest', hr, _, hrest'⟩ := hi.removed
  rw [hrest h] at hp
  rw [hrest' h] at hr
  exact ⟨hp, hr⟩

theorem Loop.pending_length (l : Loop) : l.pending.length ≤ 1 := by
  unfold Loop.pending
  split <;> simp

theorem Loop.locked_length (l : Loop) : l.locked.length ≤ 1 := by
  unfold Loop.locked
  split <;> simp

theorem Tracks.of_eq (hp : c.passed = sh.log.map Prod.fst ++ c.loop.pending)
    (hr : (sh.log.map fun d => keys d.1) = sh.removed ++ c.loop.locked.map keys) : Tracks keys sh c :=
  ⟨⟨_, hp, c.loop.pending_length, fun _ => rfl⟩, ⟨_, hr, c.loop.locked_length, fun _ => rfl⟩⟩

theorem tracks_loop {ok : Bool} (hi : Tracks keys sh c) (h : LoopMoves keys sh c ok sh' c') : Tracks keys sh' c' := by
  cases h with
  | pass m hl _ =>
    obtain ⟨hp, hr⟩ := hi.live hl rfl
    refine .of_eq ?_ hr
    show c.passed ++ [m] = sh.log.map Prod.fst ++ [m]
    rw [hp]
    simp [Loop.pending]
  | append m hl =>
    obtain ⟨hp, hr⟩ := hi.live hl rfl
    refine .of_eq ?_ ?_
    · show c.passed = (sh.log ++ [(m, sh.database)]).map Prod.fst ++ []
      rw [hp]
      simp [Loop.pending]
    · show ((sh.log ++ [(m, sh.database)]).map fun d => keys d.1) = sh.removed ++ [m].map keys
      rw [List.map_append, hr]
      simp [Loop.locked]
  | unlock m hl =>
    obtain ⟨hp, hr⟩ := hi.live hl rfl
    refine .of_eq hp ?_
    show (sh.log.map fun d => keys d.1) = (sh.removed ++ [keys m]) ++ []
    rw [hr]
    simp [Loop.locked]
  | advance m p p' hl hbefore =>
    refine hi.move rfl rfl rfl fun _ => ?_
    rw [hl]
    cases hbefore <;> exact ⟨rfl, rfl, rfl⟩
  | giveUp hl =>
    refine hi.move rfl rfl rfl fun h => ?_
    rcases hl with hl | hl
    · rw [hl]
      exact ⟨h, rfl, rfl⟩
    · rw [hl]
      exact ⟨h, rfl, rfl⟩
  | refuse hl | dial hl | start _ _ hl | turn hl | take _ _ hl | resync _ _ _ hl | skip _ hl | finish _ hl | count _ hl
  | lastWrite _ hl =>
    refine hi.move rfl rfl rfl fun h => ?_
    rw [hl]
    exact ⟨h, rfl, rfl⟩
  | crash | leave =>
    refine hi.move rfl rfl rfl fun h => ?_
    cases h
  | lastRead panics | lastFail panics =>
    refine hi.move rfl rfl rfl fun h => ?_
    cases panics <;> cases h

theorem tracks_call {e : CallEvent} (hi : Tracks keys sh c) (h : CallMoves keys sh c e sh' c') :
    Tracks keys sh' c' := by
  cases h with
  | loop hloop => exact tracks_loop hi hloop
  | connect replies hl =>
    refine hi.move rfl rfl rfl fun h => ?_
    rw [hl]
    exact ⟨h, rfl, rfl⟩
  | ack | ackRead | cancel => exact hi.move rfl rfl rfl fun h => ⟨h, rfl, rfl⟩

theorem tracks_receive (m : Msg) (hi : Tracks keys sh c) : Tracks keys sh (c.receive m) := by
  unfold Call.receive
  split
  · exact hi.move rfl rfl rfl fun h => ⟨h, rfl, rfl⟩
  · exact hi

theorem tracks_initial (keys : Msg → List Bytes) : Tracks keys {} {} :=
  ⟨⟨[], rfl, Nat.zero_le 1, fun _ => rfl⟩, ⟨[], rfl, Nat.zero_le 1, fun _ => rfl⟩⟩

/-- **The transaction log is a prefix without gaps**, in every state that one call
reaches, whatever fails and whenever the context is cancelled. -/
theorem gapFree {s : State Unit} (h : Reach (step keys) Free {} s) : GapFree keys s.shared (s.calls ()) := by
  have hinv : Tracks keys s.shared (s.calls ()) := by
    refine h.invariant (fun s => Tracks keys s.shared (s.calls ())) (tracks_initial keys) ?_
    intro s e s' hi _ hs
    cases step_moves hs with
    | call i hcall => exact tracks_call hi hcall
    | emit m => exact tracks_receive _ hi
    | select db => exact hi.move rfl rfl rfl fun h => ⟨h, rfl, rfl⟩
  exact hinv.noGap

end

/-! ### Three runs -/

/-- The array of a command. -/
def commandMsg (words : List String) : Msg := ⟨0, .array, [], words.map ascii, 0⟩

/-- The answer to `PSYNC`. -/
def fullResyncMsg : Msg := ⟨0, .simpleString, ascii "FULLRESYNC id 0", [], 0⟩

/-- A call up to the first read of its loop, the answer to `PSYNC` followed by more. -/
def opening {C : Type} (i : C) (more : List Msg) : List (Event C) :=
  [.call i (.loop true), .call i (.connect (fullResyncMsg :: more)), .call i (.loop true), .call i (.loop true)]

/-- An acknowledgement up to its read. -/
def ackTick {C : Type} (i : C) : List (Event C) := [.call i (.ack true), .call i (.ack true), .call i (.ack true)]

/-- Steps of the loop that do not fail. -/
def turns {C : Type} (i : C) (n : Nat) : List (Event C) := List.replicate n (.call i (.loop true))

/-- The keys of a command by its second word. -/
def secondWord (m : Msg) : List Bytes := m.array.tail.take 1

/-- The read after an acknowledgement takes a `PING`; the command after it is passed
on. -/
theorem faithful_ping : ∃ s : State Unit, Reach (step secondWord) (fun s e => apartRule s e = true) {} s ∧
    (s.calls ()).passed = [{commandMsg ["SET", "k", "1"] with pos := 1}] ∧ Faithful (s.calls ()) := by
  obtain ⟨s, hs, hf⟩ := exists_reach_of_play (step secondWord) apartRule (fun _ _ h => h) ({} : State Unit)
    (opening () [] ++ ackTick () ++ [.emit (commandMsg ["PING"]), .emit (commandMsg ["SET", "k", "1"]),
      .call () (.ack true)] ++ turns () 2)
    (fun s => (s.calls ()).passed == [{commandMsg ["SET", "k", "1"] with pos := 1}]) (by decide)
  exact ⟨s, hs, by simpa using hf, faithful hs ()⟩

/-- **A command can be taken by the read after an acknowledgement**, and is then never
passed on. -/
theorem not_faithful : ¬ ∀ (s : State Unit), Reach (step secondWord) (fun s e => assumed s e = true) {} s →
    Faithful (s.calls ()) := by
  intro hall
  obtain ⟨s, hs, hf⟩ := exists_reach_of_play (step secondWord) assumed (fun _ _ h => h) ({} : State Unit)
    (opening () [] ++ ackTick () ++ [.emit (commandMsg ["SET", "k", "1"]), .call () (.ack true)])
    (fun s => (s.calls ()).passed.isEmpty && (s.calls ()).held.isEmpty && (s.calls ()).inbox.isEmpty &&
      (s.calls ()).received.any Msg.isData) (by decide)
  simp only [Bool.and_eq_true, List.isEmpty_iff, List.any_eq_true] at hf
  obtain ⟨⟨⟨hp, hh⟩, hin⟩, m, hm, hd⟩ := hf
  have hpassed := (hall s hs).passed
  rw [hp, hh, hin] at hpassed
  have hmem : m ∈ (s.calls ()).received.filter Msg.isData := List.mem_filter.mpr ⟨hm, hd⟩
  rw [← hpassed] at hmem
  cases hmem

/-- Two commands are passed on; the keys of the second are not unlocked when
`UnlockKeys` fails. -/
theorem gapFree_failed_unlock : ∃ s : State Unit, Reach (step secondWord) Free {} s ∧
    s.shared.log.length = 2 ∧ s.shared.removed = [[ascii "k"]] ∧ (s.calls ()).loop = .leaving false ∧
    GapFree secondWord s.shared (s.calls ()) := by
  obtain ⟨s, hs, hf⟩ := exists_reach_of_play (step secondWord) (fun _ _ => true) (fun _ _ _ => trivial)
    ({} : State Unit)
    (opening () [] ++ [.emit (commandMsg ["SET", "k", "1"]), .emit (commandMsg ["SET", "l", "2"])] ++
      turns () 16 ++ [.call () (.loop false)])
    (fun s => s.shared.log.length == 2 && s.shared.removed == [[ascii "k"]] && (s.calls ()).loop == .leaving false)
    (by decide)
  simp only [Bool.and_eq_true, beq_iff_eq] at hf
  exact ⟨s, hs, hf.1.1, hf.1.2, hf.2, gapFree hs⟩

end AnarchoRedis.Replication
