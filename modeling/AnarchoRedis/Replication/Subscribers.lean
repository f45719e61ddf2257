import Mathlib.Data.Fintype.Basic
import Mathlib.Data.List.Nodup
import AnarchoRedis.Replication.Stream

/-! Many calls on one subscriber.

The guard of `StreamUpdates` is a flag that the read loop sets when it reads the
line `FULLRESYNC`; until then every call passes it, connects, and logs the whole
stream. The reply to `PSYNC` is that line, and it is read by the handshake. `once`:
where each call that passes the guard finds no other past it, and the reads keep
apart, every command that the leader puts on its stream once all subscriptions
are established is logged exactly once. -/
namespace AnarchoRedis.Replication
open Base Protocol

/-- Past the guard. -/
def Loop.started : Loop → Bool
  | .idle | .refused => false
  | _ => true

def Shared.logged (sh : Shared) : List Msg := sh.log.map Prod.fst

section
variable {C : Type}

/-- Every call is subscribed, or refused. -/
def Settled (s : State C) : Prop := ∀ i, (s.calls i).loop.starting = false

instance [Fintype C] (s : State C) : Decidable (Settled s) := inferInstanceAs (Decidable (∀ _, _))

/-- Everything on a connection has been dealt with. -/
def Drained (s : State C) : Prop :=
  ∀ i, (s.calls i).inbox = [] ∧ (s.calls i).held = [] ∧ (s.calls i).loop.pending = []

/-- Each command that the leader has put on its stream since the first state is in
the log at most once, and once when nothing is left to be read or handled. -/
def LoggedOnce (s₁ s₂ : State C) : Prop :=
  ∀ m ∈ s₂.stream.drop s₁.stream.length, m.isData = true →
    s₂.shared.logged.count m ≤ 1 ∧ (Drained s₂ → s₂.shared.logged.count m = 1)

/-- Asked of a call that comes to the guard: the flag is set, or no other is past it. -/
def guardRule (s : State C) : Event C → Prop
  | .call i (.loop _) =>
    (s.calls i).loop = .idle → s.shared.didSignal = true ∨ ∀ j, (s.calls j).loop.started = false
  | _ => True

instance [Fintype C] (s : State C) (e : Event C) : Decidable (guardRule s e) :=
  match e with
  | .call _ (.loop _) => inferInstanceAs (Decidable (_ → _))
  | .call _ (.connect _) | .call _ (.ack _) | .call _ .cancel | .emit _ | .select _ => .isTrue trivial

def onceRule (s : State C) (e : Event C) : Prop := apartRule s e = true ∧ guardRule s e

instance [Fintype C] (s : State C) (e : Event C) : Decidable (onceRule s e) :=
  inferInstanceAs (Decidable (_ ∧ _))

/-! ### The life of a call -/

variable {keys : Msg → List Bytes} {sh sh' : Shared} {c c' : Call}

/-- What the steps of the loop that do not fail do to where the call stands. -/
inductive Life (sh : Shared) (c : Call) (sh' : Shared) (c' : Call) : Prop where
  | refuse : c.loop = .idle → sh.didSignal = true → c'.loop = .refused → c'.received = c.received →
      sh'.log = sh.log → sh'.removed = sh.removed → sh'.didSignal = sh.didSignal → Life sh c sh' c'
  | dial : c.loop = .idle → sh.didSignal = false → c'.loop = .dialing → c'.received = c.received →
      Life sh c sh' c'
  | go : c.loop.started = true → c.loop.online = true → c'.loop.started = true → c'.loop.online = true →
      c'.loop.starting = false → c'.received = c.received → Life sh c sh' c'

theorem loop_life (hi : Steady c) (h : LoopMoves keys sh c true sh' c') : Life sh c sh' c' := by
  have hlive := hi.keeps.live
  cases h with
  | refuse hl hd => exact .refuse hl hd rfl rfl rfl rfl rfl
  | dial hl hd => exact .dial hl hd rfl rfl
  | giveUp _ hok => cases hok
  | leave id _ hleaves => exact absurd hleaves hi.not_leaves
  | crash m _ hl hd =>
    have hb := hi.benign m hl
    simp [Msg.benign, hd] at hb
  | lastWrite _ hl | lastRead _ _ hl =>
    rw [hl] at hlive
    cases hlive
  | lastFail _ hl =>
    rcases hl with hl | hl
    · rw [hl] at hlive
      cases hlive
    · rw [hl] at hlive
      cases hlive
  | start _ _ hl | turn hl | take _ _ hl | resync _ _ _ hl | pass _ hl | skip _ hl | advance _ _ _ hl | append _ hl
  | unlock _ hl | finish _ hl | count _ hl =>
    exact .go (by rw [hl]; rfl) (by rw [hl]; rfl) rfl rfl rfl rfl

/-! ### One subscription -/

/-- The stream as far as a connection has carried it: its commands are those of the
stream from some point on, a point that lies no later than `n`. -/
def Carries (n : Nat) (stream : List Msg) (c : Call) : Prop :=
  ∃ k ≤ n, c.received.filter Msg.isData = (stream.drop k).filter Msg.isData

/-- At most one call is past the guard, it carries the stream, and the log is its. -/
structure Sole (keys : Msg → List Bytes) (s : State C) : Prop where
  steady : ∀ i, Steady (s.calls i)
  sole : ∀ i j, (s.calls i).loop.started = true → (s.calls j).loop.started = true → i = j
  first : (∃ i, (s.calls i).loop.started = true) ∨
    (s.shared.didSignal = false ∧ ∀ i, (s.calls i).loop = .idle)
  tracks : ∀ i, ((s.calls i).loop.started = true ∨ ∀ j, (s.calls j).loop.started = false) →
    Tracks keys s.shared (s.calls i)
  offline : ∀ i, (s.calls i).loop.online = false → (s.calls i).received = []
  carries : ∀ i, (s.calls i).loop.online = true → Carries s.stream.length s.stream (s.calls i)
  positions : s.stream.map Msg.pos = List.range s.stream.length

theorem sole_initial (keys : Msg → List Bytes) : Sole keys ({} : State C) := by
  refine ⟨fun _ => steady_initial, ?_, .inr ⟨rfl, fun _ => rfl⟩, fun _ _ => tracks_initial keys, fun _ _ => rfl, ?_, rfl⟩
  · intro i j hi
    cases hi
  · intro i hi
    cases hi

theorem sole_emit {s : State C} (hi : Sole keys s) (m : Msg) :
    Sole keys {s with
      calls := fun i => (s.calls i).receive {m with pos := s.stream.length}
      stream := s.stream ++ [{m with pos := s.stream.length}]} := by
  have hloop (c : Call) (m : Msg) : (c.receive m).loop = c.loop := by
    unfold Call.receive
    split <;> rfl
  refine ⟨fun i => steady_receive (hi.steady i), ?_, ?_, ?_, ?_, ?_, ?_⟩
  · intro i j
    simp only [hloop]
    exact hi.sole i j
  · simp only [hloop]
    exact hi.first
  · intro i
    simp only [hloop]
    exact fun h => tracks_receive _ (hi.tracks i h)
  · intro i
    simp only [hloop]
    intro hoff
    rw [Call.receive, if_neg (by simp [hoff])]
    exact hi.offline i hoff
  · intro i
    simp only [hloop]
    intro hon
    obtain ⟨k, hk, hreceived⟩ := hi.carries i hon
    refine ⟨k, by simp; omega, ?_⟩
    simp only [Call.receive, hon, if_true]
    rw [List.filter_append, hreceived, List.drop_append_of_le_length hk, List.filter_append]
  · simp only [List.map_append, hi.positions, List.length_append, List.length_singleton, List.map_cons, List.map_nil,
      List.range_succ]

/-! ### The subscribed call -/

/-- The call `i` has been subscribed since the stream was `n` long. -/
structure Subscribed (keys : Msg → List Bytes) (n : Nat) (i : C) (s : State C) : Prop where
  sole : Sole keys s
  started : (s.calls i).loop.started = true
  settled : (s.calls i).loop.starting = false
  carries : Carries n s.stream (s.calls i)
  length : n ≤ s.stream.length

theorem Subscribed.online {n : Nat} {i : C} {s : State C} (h : Subscribed keys n i s) :
    (s.calls i).loop.online = true := by
  have hstarted := h.started
  have hsettled := h.settled
  cases hl : (s.calls i).loop <;> simp_all [Loop.started, Loop.starting, Loop.online]

/-- The call that is past the guard goes on as it is. -/
theorem subscribed_call {n : Nat} {i : C} {s : State C} {e : CallEvent} (hi : Subscribed keys n i s)
    (hr : onceRule s (.call i e)) (h : CallMoves keys s.shared (s.calls i) e sh c) :
    c.loop.started = true ∧ c.loop.starting = false ∧ c.received = (s.calls i).received := by
  have hapart := hr.1
  simp only [apartRule, Bool.and_eq_true] at hapart
  have hstarted := hi.started
  have hsettled := hi.settled
  cases h with
  | @loop ok _ _ hloop =>
    obtain rfl : ok = true := hapart.1
    cases loop_life (hi.sole.steady i) hloop with
    | refuse hidle =>
      rw [hidle] at hstarted
      cases hstarted
    | dial hidle =>
      rw [hidle] at hstarted
      cases hstarted
    | go _ _ hs' _ hstarting hreceived => exact ⟨hs', hstarting, hreceived⟩
  | connect replies hl =>
    rw [hl] at hsettled
    cases hsettled
  | ack | ackRead | cancel => exact ⟨hstarted, hsettled, rfl⟩

/-- Where all calls are settled, one is subscribed. -/
theorem exists_subscribed [Nonempty C] {s : State C} (hi : Sole keys s) (hs : Settled s) :
    ∃ i, Subscribed keys s.stream.length i s := by
  obtain ⟨i, hstarted⟩ : ∃ i, (s.calls i).loop.started = true := by
    rcases hi.first with h | ⟨_, hidle⟩
    · exact h
    · obtain ⟨i⟩ := ‹Nonempty C›
      have := hs i
      rw [hidle i] at this
      cases this
  have honline : (s.calls i).loop.online = true := by
    have hsettled := hs i
    cases hl : (s.calls i).loop <;> simp_all [Loop.started, Loop.starting, Loop.online]
  exact ⟨i, hi, hstarted, hs i, hi.carries i honline, le_rfl⟩

/-- The commands in the log, in the callback, in hand and on the connection are those
of the stream, from the subscription on. -/
theorem Subscribed.accounts {n : Nat} {i : C} {s : State C} (h : Subscribed keys n i s) :
    ∃ k ≤ n, s.shared.logged.filter Msg.isData ++
      ((s.calls i).loop.pending ++ ((s.calls i).held ++ (s.calls i).inbox)).filter Msg.isData =
        (s.stream.drop k).filter Msg.isData := by
  obtain ⟨k, hk, hreceived⟩ := h.carries
  have hfaithful := (h.sole.steady i).keeps
  obtain ⟨hpassed, _⟩ := (h.sole.tracks i (.inl h.started)).live rfl hfaithful.live
  refine ⟨k, hk, ?_⟩
  rw [← hreceived, ← hfaithful.passed, hpassed, List.filter_append, List.filter_append _ (Loop.pending _),
    List.append_assoc]
  rfl

theorem Sole.nodup {s : State C} (h : Sole keys s) : s.stream.Nodup := by
  apply List.Nodup.of_map Msg.pos
  rw [h.positions]
  exact List.nodup_range

theorem Subscribed.loggedOnce {s₁ s₂ : State C} {i : C} (h : Subscribed keys s₁.stream.length i s₂) :
    LoggedOnce s₁ s₂ := by
  intro m hm hdata
  obtain ⟨k, hk, haccounts⟩ := h.accounts
  have hnodup : (s₂.stream.drop k).Nodup := h.sole.nodup.sublist (List.drop_sublist k _)
  have hmem : m ∈ s₂.stream.drop k := List.drop_subset_drop_left _ hk hm
  have hone : ((s₂.stream.drop k).filter Msg.isData).count m = 1 := by
    rw [List.count_filter hdata]
    exact List.count_eq_one_of_mem hnodup hmem
  rw [← haccounts, List.count_append, List.count_filter hdata] at hone
  refine ⟨by omega, fun hdrained => ?_⟩
  obtain ⟨hinbox, hheld, hpending⟩ := hdrained i
  rw [hinbox, hheld, hpending] at hone
  simpa using hone

/-! ### One step -/

variable [DecidableEq C]

/-- A step after which the call is past the guard and no other is. -/
theorem Sole.alone {s : State C} {i : C} (hi : Sole keys s) (hother : ∀ j, j ≠ i → (s.calls j).loop.started = false)
    (hsteady : Steady c) (hstarted : c.loop.started = true) (htracks : Tracks keys sh c)
    (hoff : c.loop.online = false → c.received = [])
    (hon : c.loop.online = true → Carries s.stream.length s.stream c) :
    Sole keys {s with shared := sh, calls := Function.update s.calls i c} := by
  have honly (j : C) (hj : (Function.update s.calls i c j).loop.started = true) : j = i := by
    by_contra hne
    rw [Function.update_of_ne hne, hother j hne] at hj
    cases hj
  refine ⟨?_, ?_, .inl ⟨i, by simpa using hstarted⟩, ?_, ?_, ?_, hi.positions⟩
  · exact (Function.forall_update_iff _ fun _ c => Steady c).mpr ⟨hsteady, fun j _ => hi.steady j⟩
  · exact fun j k hj hk => (honly j hj).trans (honly k hk).symm
  · rintro j (hj | hall)
    · rw [honly j hj]
      simpa using htracks
    · have := hall i
      simp [hstarted] at this
  · exact (Function.forall_update_iff _ fun _ (c : Call) => c.loop.online = false → c.received = []).mpr
      ⟨hoff, fun j _ => hi.offline j⟩
  · exact (Function.forall_update_iff _ fun _ (c : Call) => c.loop.online = true →
      Carries s.stream.length s.stream c).mpr ⟨hon, fun j _ => hi.carries j⟩

omit [DecidableEq C] in
/-- Where one call is past the guard, no other is. -/
theorem Sole.others {s : State C} {i : C} (hi : Sole keys s) (hs : (s.calls i).loop.started = true) (j : C)
    (hj : j ≠ i) : (s.calls j).loop.started = false := by
  cases hb : (s.calls j).loop.started
  · rfl
  · exact absurd (hi.sole j i hb hs) hj

/-- A step that leaves the log, where the call stands and what it received alone. -/
theorem Sole.same {s : State C} {i : C} (hi : Sole keys s) (hsteady : Steady c)
    (hloop : c.loop = (s.calls i).loop) (hreceived : c.received = (s.calls i).received)
    (htracks : Tracks keys s.shared (s.calls i) → Tracks keys s.shared c) :
    Sole keys {s with calls := Function.update s.calls i c} := by
  have hloops (j : C) : (Function.update s.calls i c j).loop = (s.calls j).loop := by
    by_cases hj : j = i
    · rw [hj, Function.update_self, hloop]
    · rw [Function.update_of_ne hj]
  have hreceiveds (j : C) : (Function.update s.calls i c j).received = (s.calls j).received := by
    by_cases hj : j = i
    · rw [hj, Function.update_self, hreceived]
    · rw [Function.update_of_ne hj]
  refine ⟨?_, ?_, ?_, ?_, ?_, ?_, hi.positions⟩
  · exact (Function.forall_update_iff _ fun _ c => Steady c).mpr ⟨hsteady, fun j _ => hi.steady j⟩
  · simp only [hloops]
    exact hi.sole
  · simp only [hloops]
    exact hi.first
  · simp only [hloops]
    intro j hj
    by_cases hji : j = i
    · rw [hji, Function.update_self]
      rw [hji] at hj
      exact htracks (hi.tracks i hj)
    · rw [Function.update_of_ne hji]
      exact hi.tracks j hj
  · simp only [hloops, hreceiveds]
    exact hi.offline
  · simp only [Carries, hloops, hreceiveds]
    exact hi.carries

/-- A call is refused because another is past the guard. -/
theorem Sole.refuse {s : State C} {i : C} (hi : Sole keys s) (hidle : (s.calls i).loop = .idle)
    (hd : s.shared.didSignal = true) (hsteady : Steady c) (hc : c.loop = .refused)
    (hreceived : c.received = (s.calls i).received) (hlog : sh.log = s.shared.log)
    (hremoved : sh.removed = s.shared.removed) :
    Sole keys {s with shared := sh, calls := Function.update s.calls i c} := by
  obtain ⟨j₀, hj₀⟩ : ∃ j, (s.calls j).loop.started = true := by
    rcases hi.first with h | ⟨h, _⟩
    · exact h
    · rw [hd] at h
      cases h
  have hstarted (j : C) : (Function.update s.calls i c j).loop.started = (s.calls j).loop.started := by
    by_cases hj : j = i
    · rw [hj, Function.update_self, hc, hidle]
      rfl
    · rw [Function.update_of_ne hj]
  have hnil : c.received = [] := by rw [hreceived, hi.offline i (by rw [hidle, Loop.online])]
  refine ⟨?_, ?_, .inl ⟨j₀, by rw [hstarted, hj₀]⟩, ?_, ?_, ?_, hi.positions⟩
  · exact (Function.forall_update_iff _ fun _ c => Steady c).mpr ⟨hsteady, fun j _ => hi.steady j⟩
  · simp only [hstarted]
    exact hi.sole
  · simp only [hstarted]
    rintro j (hj | hall)
    · have hji : j ≠ i := by
        rintro rfl
        rw [hidle] at hj
        cases hj
      rw [Function.update_of_ne hji]
      exact (hi.tracks j (.inl hj)).move hlog hremoved rfl fun h => ⟨h, rfl, rfl⟩
    · rw [hall j₀] at hj₀
      cases hj₀
  · exact (Function.forall_update_iff _ fun _ (c : Call) => c.loop.online = false → c.received = []).mpr
      ⟨fun _ => hnil, fun j _ => hi.offline j⟩
  · exact (Function.forall_update_iff _ fun _ (c : Call) => c.loop.online = true →
      Carries s.stream.length s.stream c).mpr ⟨by simp [hc, Loop.online], fun j _ => hi.carries j⟩

theorem sole_call {s : State C} {i : C} {e : CallEvent} (hi : Sole keys s) (hr : onceRule s (.call i e))
    (h : CallMoves keys s.shared (s.calls i) e sh c) :
    Sole keys {s with shared := sh, calls := Function.update s.calls i c} := by
  obtain ⟨hapart, hguard⟩ := hr
  simp only [apartRule, Bool.and_eq_true] at hapart
  have hsteady := steady_call (hi.steady i) hapart.1 hapart.2 h
  have htracks (ht : Tracks keys s.shared (s.calls i)) : Tracks keys sh c := tracks_call ht h
  cases h with
  | @loop ok _ _ hloop =>
    obtain rfl : ok = true := hapart.1
    cases loop_life (hi.steady i) hloop with
    | refuse hidle hd hc hreceived hlog hremoved _ =>
      exact hi.refuse hidle hd hsteady hc hreceived hlog hremoved
    | dial hidle hd hc hreceived =>
      have hall : ∀ j, (s.calls j).loop.started = false := by
        rcases hguard hidle with hsignal | hall
        · rw [hd] at hsignal
          cases hsignal
        · exact hall
      refine hi.alone (fun j _ => hall j) hsteady (by rw [hc]; rfl) (htracks (hi.tracks i (.inr hall))) ?_ ?_
      · intro _
        rw [hreceived, hi.offline i (by rw [hidle, Loop.online])]
      · intro hon
        rw [hc] at hon
        cases hon
    | go hs hon hs' hon' _ hreceived =>
      refine hi.alone (hi.others hs) hsteady hs' (htracks (hi.tracks i (.inl hs))) ?_ ?_
      · intro hoff
        rw [hoff] at hon'
        cases hon'
      · intro _
        rw [Carries, hreceived]
        exact hi.carries i hon
  | connect replies hl =>
    have hs : (s.calls i).loop.started = true := by rw [hl]; rfl
    refine hi.alone (hi.others hs) hsteady rfl (htracks (hi.tracks i (.inl hs))) (by simp [Loop.online]) fun _ => ?_
    have hnil := hi.offline i (by rw [hl, Loop.online])
    refine ⟨s.stream.length, le_rfl, ?_⟩
    simp only [hnil, List.nil_append, connect_noData hapart.1, List.drop_length, List.filter_nil]
  | ack ok a acks hoff => exact hi.same hsteady rfl rfl htracks
  | ackRead m rest hack hin => exact hi.same hsteady rfl rfl htracks
  | cancel => cases hapart.1

theorem sole_step {s s' : State C} {e : Event C} (hi : Sole keys s) (hr : onceRule s e) (h : Moves keys s e s') :
    Sole keys s' := by
  cases h with
  | call i hcall => exact sole_call hi hr hcall
  | emit m => exact sole_emit hi m
  | select db =>
    exact ⟨hi.steady, hi.sole, hi.first,
      fun i hs => (hi.tracks i hs).move rfl rfl rfl fun h => ⟨h, rfl, rfl⟩, hi.offline, hi.carries, hi.positions⟩

theorem sole_reach {s : State C} (h : Reach (step keys) onceRule {} s) : Sole keys s :=
  h.invariant (Sole keys) (sole_initial keys) fun _ _ _ hi hr hs => sole_step hi hr (step_moves hs)

/-! ### Exactly once -/

theorem subscribed_step {n : Nat} {i : C} {s s' : State C} {e : Event C} (hi : Subscribed keys n i s)
    (hr : onceRule s e) (h : Moves keys s e s') : Subscribed keys n i s' := by
  have hsole := sole_step hi.sole hr h
  cases h with
  | call j hcall =>
    by_cases hij : i = j
    · subst hij
      obtain ⟨hstarted, hsettled, hreceived⟩ := subscribed_call hi hr hcall
      refine ⟨hsole, by simpa using hstarted, by simpa using hsettled, ?_, hi.length⟩
      simp only [Function.update_self, Carries, hreceived]
      exact hi.carries
    · refine ⟨hsole, ?_, ?_, ?_, hi.length⟩
      all_goals simp only [Function.update_of_ne hij]
      · exact hi.started
      · exact hi.settled
      · exact hi.carries
  | emit m =>
    have hreceive (m : Msg) : (s.calls i).receive m =
        {s.calls i with inbox := (s.calls i).inbox ++ [m], received := (s.calls i).received ++ [m]} := by
      rw [Call.receive, if_pos hi.online]
    obtain ⟨k, hk, hreceived⟩ := hi.carries
    have hlen := hi.length
    refine ⟨hsole, by simp only [hreceive]; exact hi.started, by simp only [hreceive]; exact hi.settled,
      ⟨k, hk, ?_⟩, by simp; omega⟩
    simp only [hreceive]
    rw [List.filter_append, hreceived, List.drop_append_of_le_length (by omega), List.filter_append]
  | select db => exact ⟨hsole, hi.started, hi.settled, hi.carries, hi.length⟩

/-- **Every command is logged exactly once** that the leader puts on its stream once
all subscriptions are established, in every run in which the calls pass the guard
one after the other and the reads keep apart. -/
theorem once [Nonempty C] {s₁ s₂ : State C} (h₁ : Reach (step keys) onceRule {} s₁) (hs : Settled s₁)
    (h₂ : Reach (step keys) onceRule s₁ s₂) : LoggedOnce s₁ s₂ := by
  obtain ⟨i, hi⟩ := exists_subscribed (sole_reach h₁) hs
  have hsub : Subscribed keys s₁.stream.length i s₂ :=
    h₂.invariant (Subscribed keys s₁.stream.length i) hi
      fun _ _ _ hi hr hs => subscribed_step hi hr (step_moves hs)
  exact hsub.loggedOnce

end

/-! ### Two runs -/

/-- One turn of the loop for a command, from its read to the next. -/
def handled {C : Type} (i : C) : List (Event C) := turns i 10

/-- The first call reads a second `FULLRESYNC` before the other comes to the guard. -/
def inTurn {C : Type} (i j : C) : List (Event C) :=
  opening i [fullResyncMsg] ++ turns i 4 ++ [.call j (.loop true)]

theorem once_in_turn : ∃ s₁ s₂ : State (Fin 2), Reach (step secondWord) onceRule {} s₁ ∧ Settled s₁ ∧
    Reach (step secondWord) onceRule s₁ s₂ ∧
    s₂.stream.drop s₁.stream.length = [commandMsg ["SET", "k", "1"]] ∧
    s₂.shared.logged = [commandMsg ["SET", "k", "1"]] ∧ LoggedOnce s₁ s₂ := by
  obtain ⟨s₁, s₂, h₁, h₂, hf⟩ := exists_reach_of_play_then (step secondWord) (fun s e => decide (onceRule s e))
    (fun _ _ h => of_decide_eq_true h) ({} : State (Fin 2)) (inTurn 0 1)
    (.emit (commandMsg ["SET", "k", "1"]) :: handled 0)
    (fun s₁ s₂ => decide (Settled s₁) && s₂.stream.drop s₁.stream.length == [commandMsg ["SET", "k", "1"]] &&
      s₂.shared.logged == [commandMsg ["SET", "k", "1"]]) (by decide)
  simp only [Bool.and_eq_true, decide_eq_true_eq, beq_iff_eq] at hf
  exact ⟨s₁, s₂, h₁, hf.1.1, h₂, hf.1.2, hf.2, once h₁ hf.1.1 h₂⟩

/-- **Two calls that pass the guard log every command twice.** -/
theorem not_once : ¬ ∀ s₁ s₂ : State (Fin 2), Reach (step secondWord) (fun s e => assumed s e = true) {} s₁ →
    Settled s₁ → Reach (step secondWord) (fun s e => assumed s e = true) s₁ s₂ → LoggedOnce s₁ s₂ := by
  intro hall
  obtain ⟨s₁, s₂, h₁, h₂, hf⟩ := exists_reach_of_play_then (step secondWord) assumed (fun _ _ h => h)
    ({} : State (Fin 2)) (opening 0 [] ++ opening 1 [])
    (.emit (commandMsg ["SET", "k", "1"]) :: (handled 0 ++ handled 1))
    (fun s₁ s₂ => decide (Settled s₁) && s₂.stream.drop s₁.stream.length == [commandMsg ["SET", "k", "1"]] &&
      s₂.shared.logged == [commandMsg ["SET", "k", "1"], commandMsg ["SET", "k", "1"]]) (by decide)
  simp only [Bool.and_eq_true, decide_eq_true_eq, beq_iff_eq] at hf
  obtain ⟨⟨hsettled, hstream⟩, hlogged⟩ := hf
  have honce := (hall s₁ s₂ h₁ hsettled h₂ (commandMsg ["SET", "k", "1"]) (by simp [hstream]) (by decide)).1
  rw [hlogged] at honce
  exact absurd honce (by decide)

end AnarchoRedis.Replication
