import AnarchoRedis.Replication.Offset
import AnarchoRedis.Replication.Stream

/-! What the read loop passes on.

The switch of the loop takes an array for a command unless it begins with `PING`; its
case for `REPLCONF` is reached by a `PING` alone, so that a `REPLCONF` is passed to the
callback like any command. An array without elements, and a `FULLRESYNC` without its two
arguments, make the loop panic. `passesData_iff`: those are the only messages that do harm,
and each of them does, when the loop comes to read it. -/
namespace AnarchoRedis.Replication
open Base Protocol

/-- A message that the switch of the loop takes for what it is: an array with elements
that is no `REPLCONF`, a `FULLRESYNC` with its arguments, or anything else. -/
def Msg.clean (m : Msg) : Bool :=
  match m.kind with
  | .simpleString => (m.str.splitOn 32).head? != some (ascii "FULLRESYNC") || 3 ≤ (m.str.splitOn 32).length
  | .array => m.array.head?.any (· != ascii "REPLCONF")
  | _ => true

theorem fullResync_ne_crash {fields : List Bytes} : (∀ id, fullResync fields ≠ .crash id) ↔ 3 ≤ fields.length := by
  match fields with
  | [] | [_] | [_, _] => simp [fullResync]
  | _ :: _ :: offset :: rest =>
    simp only [fullResync, List.length_cons]
    split <;> simp

theorem fullResync_ne_call (fields : List Bytes) : fullResync fields ≠ .call := by
  match fields with
  | [] | [_] | [_, _] => simp [fullResync]
  | _ :: _ :: offset :: rest =>
    simp only [fullResync]
    split <;> simp

/-- The switch does what it is for exactly with a clean message. -/
theorem clean_iff (m : Msg) :
    m.clean = true ↔ (∀ id, dispatch m ≠ .crash id) ∧ (dispatch m = .call → m.isData = true) := by
  unfold Msg.clean dispatch Msg.isData
  cases m.kind with
  | simpleString =>
    by_cases hfull : (m.str.splitOn 32).head? = some (ascii "FULLRESYNC")
    · simp [hfull, fullResync_ne_crash, fullResync_ne_call]
    · simp [hfull]
  | array =>
    cases m.array with
    | nil => simp
    | cons name rest =>
      by_cases hping : name = ascii "PING"
      · have hne : ascii "PING" ≠ ascii "REPLCONF" := by decide
        simp [hping, hne]
      · simp [hping]
  | _ => simp

/-! ### The messages that the loop has read -/

/-- A call, with the messages that its loop has read. -/
structure Watched where
  read : List Msg
  shared : Shared
  call : Call

/-- A step of the call, after which the loop has read what it has in hand. -/
def watchStep (keys : Msg → List Bytes) (w : Watched) (e : CallEvent) : Option Watched :=
  (callStep keys w.shared w.call e).map fun (sh, c) =>
    ⟨if w.call.loop = .reading then w.read ++ c.held else w.read, sh, c⟩

/-- No acknowledgement runs. -/
def CallEvent.noTick : CallEvent → Bool
  | .ack _ => false
  | _ => true

/-- The loop has panicked, with or without what was deferred still to be done. -/
def Loop.panicked : Loop → Bool
  | .leaving panics | .draining panics => panics
  | .crashed => true
  | _ => false

/-- The loop has not panicked, and of what it has read it has passed on the commands, but
for the one that it has in hand. -/
structure Passes (c : Call) (w : Watched) : Prop where
  alive : w.call.loop.panicked = false
  passed : w.call.passed ++ w.call.held.filter Msg.isData = c.passed ++ w.read.filter Msg.isData

/-- From where the loop stands, it passes on commands and nothing else. -/
def PassesData (keys : Msg → List Bytes) (sh : Shared) (c : Call) : Prop :=
  ∀ w, Reach (watchStep keys) (fun _ e => e.noTick = true) ⟨[], sh, c⟩ w → Passes c w

/-- Every message that the loop can come to read is clean: it reads those up to the first
at which it is left, if the context is not cancelled before. -/
def ReadsClean (c : Call) : Prop :=
  c.cancelled = false → ∀ read m rest, c.inbox = read ++ m :: rest →
    (∀ x ∈ read, (dispatch x).goesOn = true) → m.clean = true

/-- The loop has no message in hand, and has not panicked. -/
def Loop.settled : Loop → Bool
  | .got _ => false
  | l => !l.panicked

/-- What has been read, by where the loop stands. -/
def Position (c : Call) (w : Watched) : Prop :=
  match w.call.loop with
  | .head => c.inbox = w.read ++ w.call.inbox ∧ ∀ x ∈ w.read, (dispatch x).goesOn = true
  | .reading | .handling .. | .counting _ =>
    c.cancelled = false ∧ c.inbox = w.read ++ w.call.inbox ∧ ∀ x ∈ w.read, (dispatch x).goesOn = true
  | .got m => c.cancelled = false ∧ ∃ before, w.read = before ++ [m] ∧ c.inbox = before ++ m :: w.call.inbox ∧
      ∀ x ∈ before, (dispatch x).goesOn = true
  | .leaving _ | .draining _ | .done => True
  | _ => False

structure Watching (c : Call) (w : Watched) : Prop where
  passes : Passes c w
  position : Position c w
  context : c.cancelled = true → w.call.cancelled = true

section
variable {keys : Msg → List Bytes} {c c' : Call} {w : Watched} {sh : Shared} {ok : Bool}

theorem settled_alive {l : Loop} (h : l.settled = true) : l.panicked = false := by
  cases l with
  | got m => cases h
  | _ => exact (Bool.not_eq_true' _).mp h

/-- A step of the loop with no command in hand, before or after. -/
theorem Watching.move (h : Watching c w) {l : Loop} (hheld : w.call.held.filter Msg.isData = [])
    (hl : l.settled = true) (hpos : Position c ⟨w.read, sh, {w.call with loop := l}⟩) :
    Watching c ⟨if w.call.loop = .reading then w.read ++ {w.call with loop := l}.held else w.read, sh,
      {w.call with loop := l}⟩ := by
  have hnone : {w.call with loop := l}.held = [] := by
    refine held_of_loop fun m heq => ?_
    rw [heq] at hl
    cases hl
  rw [hnone, List.append_nil, ite_self]
  refine ⟨⟨settled_alive hl, ?_⟩, hpos, h.context⟩
  · have hpassed := h.passes.passed
    rw [hheld] at hpassed
    rw [hnone]
    exact hpassed

/-- The loop goes on to read only while the context lives. -/
theorem turn_live (hl : c.loop = .head) (hstep : loopStep keys sh c ok = some (sh, {c with loop := .reading})) :
    c.cancelled = false := by
  rw [loopStep, hl] at hstep
  cases hc : c.cancelled with
  | false => rfl
  | true => simp [hc] at hstep

/-- The loop has read a clean message. -/
theorem watching_react {m : Msg} (hclean : ReadsClean c) (h : Watching c w) (hl : w.call.loop = .got m) :
    Watching c ⟨w.read, (react w.shared w.call m).1, (react w.shared w.call m).2⟩ := by
  have hpos := h.position
  simp only [Position, hl] at hpos
  obtain ⟨hlive, before, hread, hin, hgo⟩ := hpos
  obtain ⟨hcrash, hdata⟩ := (clean_iff m).mp (hclean hlive before m _ hin hgo)
  have hmove {l : Loop} {sh : Shared} (hd : dispatch m ≠ .call) (hsettled : l.settled = true)
      (hpos : Position c ⟨w.read, sh, {w.call with loop := l}⟩) :
      Watching c ⟨w.read, sh, {w.call with loop := l}⟩ := by
    have hmove := h.move (held_skipped hl hd) hsettled hpos
    rwa [if_neg (by simp [hl])] at hmove
  have hread' : c.inbox = w.read ++ w.call.inbox := by
    rw [hin, hread, List.append_assoc, List.singleton_append]
  have hgo' (hm : (dispatch m).goesOn = true) : ∀ x ∈ w.read, (dispatch x).goesOn = true := by
    rw [hread, List.forall_mem_append, List.forall_mem_singleton]
    exact ⟨hgo, hm⟩
  cases hd : dispatch m with
  | crash id => exact absurd hd (hcrash id)
  | fail | badResync id =>
    rw [react, hd]
    exact hmove (by simp [hd]) rfl trivial
  | resync id offset | skip =>
    rw [react, hd]
    exact hmove (by simp [hd]) rfl ⟨hlive, hread', hgo' (by rw [hd]; rfl)⟩
  | call =>
    have hpassed := h.passes.passed
    rw [held_got hl, List.filter_cons_of_pos (hdata hd), List.filter_nil] at hpassed
    rw [react, hd]
    refine ⟨⟨rfl, ?_⟩, ⟨hlive, hread', hgo' (by rw [hd]; rfl)⟩, h.context⟩
    exact (List.append_nil _).trans hpassed

theorem watching_loop {sh' : Shared} (hclean : ReadsClean c) (h : Watching c w)
    (hstep : loopStep keys w.shared w.call ok = some (sh', c')) :
    Watching c ⟨if w.call.loop = .reading then w.read ++ c'.held else w.read, sh', c'⟩ := by
  by_cases hgot : ∃ m, w.call.loop = .got m
  · obtain ⟨m, hl⟩ := hgot
    rw [loopStep, hl, Option.some.injEq] at hstep
    have hreact := watching_react hclean h hl
    rw [hstep] at hreact
    rw [if_neg (by simp [hl])]
    exact hreact
  · have hheld : w.call.held.filter Msg.isData = [] := held_nil fun m hl => hgot ⟨m, hl⟩
    have hpos := h.position
    cases loop_moves hstep with
    | refuse hl | dial hl | start _ _ hl => simp only [Position, hl] at hpos
    | giveUp hl => rcases hl with hl | hl <;> simp only [Position, hl] at hpos
    | crash m _ hl | resync m _ _ hl | pass m hl | skip m hl => exact absurd ⟨m, hl⟩ hgot
    | turn hl =>
      simp only [Position, hl] at hpos
      have hlive : c.cancelled = false :=
        eq_false_of_ne_true fun hc => absurd (h.context hc) (by rw [turn_live hl hstep]; decide)
      exact h.move hheld rfl ⟨hlive, hpos⟩
    | take m rest hl _ hin =>
      simp only [Position, hl, hin] at hpos
      have hpassed := h.passes.passed
      rw [hheld, List.append_nil] at hpassed
      rw [if_pos hl]
      refine ⟨⟨rfl, ?_⟩, ⟨hpos.1, w.read, rfl, hpos.2⟩, h.context⟩
      rw [List.filter_append, ← List.append_assoc, ← hpassed]
    | advance m p p' hl _ | append m hl | unlock m hl | finish m hl =>
      simp only [Position, hl] at hpos
      exact h.move hheld rfl hpos
    | count m hl =>
      simp only [Position, hl] at hpos
      exact h.move hheld rfl hpos.2
    | leave => exact h.move hheld rfl trivial
    | lastFail panics hl =>
      have hpanics : panics = false := by
        have halive := h.passes.alive
        rcases hl with hl | hl <;> rwa [hl] at halive
      subst hpanics
      exact h.move hheld rfl trivial
    | lastWrite panics hl | lastRead panics _ hl =>
      have hpanics : panics = false := by
        have halive := h.passes.alive
        rwa [hl] at halive
      subst hpanics
      rw [if_neg (by simp [hl])]
      refine ⟨⟨rfl, ?_⟩, trivial, h.context⟩
      have hpassed := h.passes.passed
      rw [hheld] at hpassed
      exact hpassed

/-- What one step without a tick keeps. -/
theorem watching_step {w' : Watched} {e : CallEvent} (hclean : ReadsClean c) (h : Watching c w)
    (he : e.noTick = true) (hstep : watchStep keys w e = some w') : Watching c w' := by
  obtain ⟨⟨sh, c'⟩, hcall, rfl⟩ := Option.map_eq_some_iff.mp hstep
  cases e with
  | loop ok => exact watching_loop hclean h hcall
  | ack ok => cases he
  | connect replies =>
    have hpos := h.position
    simp only [callStep] at hcall
    split at hcall
    · rename_i hl
      simp only [Position, hl] at hpos
    · cases hcall
  | cancel =>
    cases hcall
    have hread : (if w.call.loop = .reading then w.read ++ w.call.held else w.read) = w.read := by
      by_cases hl : w.call.loop = .reading
      · rw [if_pos hl, Call.held, hl, List.append_nil]
      · exact if_neg hl
    have hsame : Watching c ⟨w.read, w.shared, {w.call with cancelled := true}⟩ :=
      ⟨⟨h.passes.alive, h.passes.passed⟩, h.position, fun _ => rfl⟩
    rw [← hread] at hsame
    exact hsame

theorem watching_start (hl : c.loop = .head) : Watching c ⟨[], sh, c⟩ := by
  refine ⟨⟨by rw [hl]; rfl, ?_⟩, ?_, id⟩
  · show c.passed ++ c.held.filter Msg.isData = c.passed ++ []
    rw [held_nil (by simp [hl])]
  · simp only [Position, hl]
    exact ⟨rfl, nofun⟩

/-! ### What the loop comes to read -/

/-- The turns of the loop, watched. -/
theorem exists_watched {s : Shared × Call} (h : Reach (turnStep keys) Free (sh, c) s) :
    ∃ read, Reach (watchStep keys) (fun _ e => e.noTick = true) ⟨[], sh, c⟩ ⟨read, s.1, s.2⟩ := by
  induction h with
  | start => exact ⟨[], .start⟩
  | @next s s' ok _ _ hstep ih =>
    obtain ⟨read, hread⟩ := ih
    have hcall : callStep keys s.1 s.2 (.loop ok) = some s' := hstep
    exact ⟨_, .next hread (e := .loop ok) rfl (by rw [watchStep, hcall]; rfl)⟩

/-- Messages with which the loop goes on are read, one after the other. -/
theorem exists_turns (keys : Msg → List Bytes) (sh : Shared) {read rest : List Msg} (hl : c.loop = .head)
    (hc : c.cancelled = false) (hin : c.inbox = read ++ rest) (hgo : ∀ x ∈ read, (dispatch x).goesOn = true) :
    ∃ s, Reach (turnStep keys) Free (sh, c) s ∧ s.2.loop = .head ∧ s.2.cancelled = false ∧ s.2.inbox = rest := by
  induction read generalizing sh c with
  | nil => exact ⟨(sh, c), .start, hl, hc, hin⟩
  | cons x read ih =>
    obtain ⟨hx, hrest⟩ := List.forall_mem_cons.mp hgo
    obtain ⟨s, hs, hl', hc', hin'⟩ := exists_turn keys sh hl hc hin hx
    obtain ⟨t, ht, hend⟩ := ih s.1 hl' hc' hin' hrest
    exact ⟨t, hs.trans ht, hend⟩

/-- The message after those is read as well. -/
theorem exists_got (keys : Msg → List Bytes) (sh : Shared) {read rest : List Msg} {m : Msg} (hl : c.loop = .head)
    (hc : c.cancelled = false) (hin : c.inbox = read ++ m :: rest)
    (hgo : ∀ x ∈ read, (dispatch x).goesOn = true) :
    ∃ s, Reach (turnStep keys) Free (sh, c) s ∧ s.2.loop = .got m := by
  obtain ⟨s, hs, hl', hc', hin'⟩ := exists_turns keys sh hl hc hin hgo
  exact ⟨_, hs.trans (reach_got keys s.1 hl' hc' hin'), rfl⟩

/-- What is passed on tells that the message was clean. -/
theorem clean_of_passes {read : List Msg} {m : Msg} (hl : c'.loop = .got m) (h : Passes c ⟨read, sh, c'⟩)
    (h' : Passes c ⟨read, (react sh c' m).1, (react sh c' m).2⟩) : m.clean = true := by
  refine (clean_iff m).mpr ⟨fun id hd => ?_, fun hd => ?_⟩
  · rw [react, hd] at h'
    cases h'.alive
  · rw [react, hd] at h'
    have hpassed : c'.passed ++ [m] ++ [] = c'.passed ++ c'.held.filter Msg.isData := h'.passed.trans h.passed.symm
    rw [List.append_nil, held_got hl] at hpassed
    have hfilter := List.append_cancel_left hpassed
    exact (List.mem_filter.mp (hfilter ▸ List.mem_singleton_self m)).2

end

/-- **The loop passes on commands and nothing else exactly when every message that it can
come to read is clean.** -/
theorem passesData_iff (keys : Msg → List Bytes) (sh : Shared) {c : Call} (hl : c.loop = .head) :
    PassesData keys sh c ↔ ReadsClean c := by
  constructor
  · intro h hc read m rest hin hgo
    obtain ⟨s, hs, hgot⟩ := exists_got keys sh hl hc hin hgo
    obtain ⟨before, hbefore⟩ := exists_watched hs
    have hstep : watchStep keys ⟨before, s.1, s.2⟩ (.loop true) =
        some ⟨before, (react s.1 s.2 m).1, (react s.1 s.2 m).2⟩ := by
      rw [watchStep, callStep, loopStep, hgot]
      rfl
    exact clean_of_passes hgot (h _ hbefore) (h _ (.next hbefore rfl hstep))
  · intro hclean w hw
    exact (hw.invariant (Watching c) (watching_start hl) fun _ _ _ h he => watching_step hclean h he).passes

def pingCommand : Msg := ⟨0, .array, [], [ascii "PING"], 14⟩

/-- What a leader asks from time to time. -/
def getAck : Msg := ⟨0, .array, [], [ascii "REPLCONF", ascii "GETACK", ascii "*"], 37⟩

/-- A `FULLRESYNC`, a `PING` and a command. -/
theorem passesData_iff_clean :
    PassesData (fun _ => []) {} {loop := .head, inbox := [resyncLine firstSync, pingCommand, setCommand]} := by
  refine (passesData_iff (fun _ => []) {} rfl).mpr fun _ read m rest hin _ => ?_
  have hall : ∀ m ∈ [resyncLine firstSync, pingCommand, setCommand], m.clean = true := by decide
  have hm : m ∈ read ++ m :: rest := List.mem_append_right read List.mem_cons_self
  rw [← hin] at hm
  exact hall m hm

/-- **A `REPLCONF` is passed on.** -/
theorem not_passesData : ¬∀ (sh : Shared) (c : Call), c.loop = .head → PassesData (fun _ => []) sh c := by
  intro h
  obtain ⟨w, hw, hfound⟩ := exists_reach_of_play (watchStep fun _ => []) (fun _ e => e.noTick) (fun _ _ => id)
    ⟨[], {}, {loop := .head, inbox := [getAck]}⟩ [.loop true, .loop true, .loop true]
    (fun w => w.call.passed == [getAck] && w.read.filter Msg.isData == []) (by decide)
  rw [Bool.and_eq_true, beq_iff_eq, beq_iff_eq] at hfound
  have hpassed := (h {} _ rfl w hw).passed
  rw [hfound.1, hfound.2] at hpassed
  cases hpassed

/-- An array without elements crashes the loop. -/
example : dispatch ⟨0, .array, [], [], 4⟩ = .crash none := by decide

end AnarchoRedis.Replication
