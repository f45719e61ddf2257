import Mathlib.Data.List.Nodup
import Mathlib.Logic.Function.Basic
import AnarchoRedis.Base.Runs

/-! Round trips on a shared connection.

`RoundTrip` is three steps, each under the connection's lock: the request is written
to a buffer, the buffer is flushed, and a reply is read. Between them other calls
take their steps. A flush sends whatever is in the buffer, and its error is dropped;
the buffer also empties by itself when it is full; once sending has failed the writer
takes no more. The peer answers the requests in the order in which they arrive.

Requests stay in the order in which they were written all the way to the replies
(`Link.order`), so a call gets its own reply if it reads in its turn
(`own_replies`); nothing in `RoundTrip` makes it do so. A request is written as a
whole or not at all here: what part of one does to the peer is not modelled. -/
namespace AnarchoRedis.Protocol.Conn
open Base

section
variable {C : Type}

/-- The requests by where they have got to, each list in order. -/
structure Link (C : Type) where
  /-- Their replies have been taken from the connection. -/
  taken : List C := []
  /-- Answered, the replies not read. -/
  replies : List C := []
  /-- With the peer. -/
  peer : List C := []
  buffer : List C := []
  /-- They stay in a buffer that can no longer be sent. -/
  lost : List C := []
  broken : Bool := false

/-- The requests in the order in which they were written. -/
def Link.order (l : Link C) : List C := l.taken ++ (l.replies ++ (l.peer ++ (l.buffer ++ l.lost)))

def Link.push (l : Link C) (c : C) : Link C := {l with buffer := l.buffer ++ [c]}

def Link.send (l : Link C) (n : Nat) : Link C := {l with peer := l.peer ++ l.buffer.take n, buffer := l.buffer.drop n}

def Link.fail (l : Link C) : Link C := {l with buffer := [], lost := l.buffer ++ l.lost, broken := true}

theorem Link.order_send (l : Link C) (n : Nat) : (l.send n).order = l.order := by
  have hbuffer : l.buffer.take n ++ (l.buffer.drop n ++ l.lost) = l.buffer ++ l.lost := by
    rw [← List.append_assoc, List.take_append_drop]
  simp only [order, send, List.append_assoc, hbuffer]

theorem Link.order_fail (l : Link C) : l.fail.order = l.order := rfl

theorem Link.order_push {l : Link C} (c : C) (h : l.lost = []) : (l.push c).order = l.order ++ [c] := by
  simp only [order, push, h, List.append_nil, List.append_assoc]

/-! ### Calls -/

/-- Where a call of `RoundTrip` stands. -/
inductive Phase (C : Type) where
  | idle
  | wrote
  | flushed
  /-- Returned without an error, with the reply to this call's request. -/
  | returned (reply : C)
  /-- Returned with an error. -/
  | failed
  deriving DecidableEq

structure State (C : Type) where
  link : Link C := {}
  phase : C → Phase C := fun _ => .idle

def initial (C : Type) : State C := {}

inductive WriteEnd where
  /-- Written, with so many requests of a full buffer sent. -/
  | done (spilled : Nat)
  | refused
  /-- The buffer was full and sending failed after so many. -/
  | broke (sent : Nat)
  deriving DecidableEq

inductive ReadEnd where
  | done
  /-- An error, before the next reply is taken or after it. -/
  | failed (took : Bool)
  deriving DecidableEq

inductive Event (C : Type) where
  | write (c : C) (e : WriteEnd)
  /-- `Flush`, which may fail after it has sent so many. -/
  | flush (c : C) (failed : Option Nat)
  /-- The peer answers the next request. -/
  | answer
  | read (c : C) (e : ReadEnd)
  deriving DecidableEq

variable [DecidableEq C]

def State.go (s : State C) (c : C) (p : Phase C) (l : Link C) : State C := ⟨l, Function.update s.phase c p⟩

def step (s : State C) : Event C → Option (State C)
  | .write c e =>
    match s.phase c with
    | .idle =>
      match e with
      | .refused => some (s.go c .failed s.link)
      | .done n => if s.link.broken then none else some (s.go c .wrote ((s.link.push c).send n))
      | .broke n => if s.link.broken then none else some (s.go c .failed (s.link.send n).fail)
    | _ => none
  | .flush c failed =>
    match s.phase c with
    | .wrote =>
      if s.link.broken then some (s.go c .flushed s.link)
      else
        match failed with
        | none => some (s.go c .flushed (s.link.send s.link.buffer.length))
        | some n => some (s.go c .flushed (s.link.send n).fail)
    | _ => none
  | .answer =>
    match s.link.peer with
    | [] => none
    | c :: rest => some {s with link := {s.link with replies := s.link.replies ++ [c], peer := rest}}
  | .read c e =>
    match s.phase c with
    | .flushed =>
      match e with
      | .failed false => some (s.go c .failed s.link)
      | .failed true =>
        match s.link.replies with
        | [] => none
        | d :: rest => some (s.go c .failed {s.link with taken := s.link.taken ++ [d], replies := rest})
      | .done =>
        match s.link.replies with
        | [] => none
        | d :: rest => some (s.go c (.returned d) {s.link with taken := s.link.taken ++ [d], replies := rest})
    | _ => none

/-- Every call that returns without an error returns the reply to its own request. -/
def OwnReplies (s : State C) : Prop := ∀ c d, s.phase c = .returned d → d = c

/-- A call comes to its read when the reply to every request that was written before
its own has been taken. -/
def inTurn (s : State C) : Event C → Bool
  | .read c _ => (s.link.order.takeWhile (· ≠ c)).all (· ∈ s.link.taken)
  | _ => true

/-! ### Runs in turn -/

/-- In an order without repetition, what stands right after the requests taken comes
before every other that is not taken. -/
theorem mem_takeWhile_of_next {taken rest : List C} {c d : C} (hd : d ≠ c) (hc : c ∉ taken) :
    d ∈ (taken ++ d :: rest).takeWhile (· ≠ c) := by
  have hfront : ∀ x ∈ taken, decide (x ≠ c) = true := fun x hx => decide_eq_true fun heq => hc (heq ▸ hx)
  have hnext : (d :: rest).takeWhile (· ≠ c) = d :: rest.takeWhile (· ≠ c) :=
    List.takeWhile_cons_of_pos (decide_eq_true hd)
  rw [List.takeWhile_append_of_pos hfront, hnext]
  exact List.mem_append_right _ List.mem_cons_self

/-- Where a call that is under way, and one that has returned, find their requests. -/
structure Orderly (s : State C) : Prop where
  nodup : s.link.order.Nodup
  intact : s.link.broken = false → s.link.lost = []
  idle : ∀ c, s.phase c = .idle → c ∉ s.link.order
  underway : ∀ c, s.phase c = .wrote ∨ s.phase c = .flushed → c ∈ s.link.order ∧ c ∉ s.link.taken
  own : OwnReplies s

omit [DecidableEq C] in
theorem orderly_initial : Orderly (initial C) where
  nodup := List.nodup_nil
  intact _ := rfl
  idle _ _ := List.not_mem_nil
  underway _ h := by rcases h with h | h <;> cases h
  own _ _ h := by cases h

section
variable {s : State C} {c : C}

/-- A step of one call, which leaves the order as it is and takes at most its own reply. -/
theorem Orderly.go (h : Orderly s) {l : Link C} {p : Phase C} (horder : l.order = s.link.order)
    (htaken : ∀ d ≠ c, d ∈ l.taken → d ∈ s.link.taken) (hintact : l.broken = false → l.lost = [])
    (hidle : p ≠ .idle) (hunder : p = .wrote ∨ p = .flushed → c ∈ l.order ∧ c ∉ l.taken)
    (hown : ∀ d, p = .returned d → d = c) : Orderly (s.go c p l) := by
  have hother {d : C} (hd : d ≠ c) : (s.go c p l).phase d = s.phase d := Function.update_of_ne hd ..
  have hself : (s.go c p l).phase c = p := Function.update_self ..
  refine ⟨by rw [State.go, horder]; exact h.nodup, hintact, fun d hd => ?_, fun d hd => ?_, fun d e hd => ?_⟩
  all_goals by_cases hdc : d = c
  · subst hdc
    exact absurd (hself.symm.trans hd) hidle
  · rw [State.go, horder]
    exact h.idle d ((hother hdc).symm.trans hd)
  · subst hdc
    rw [hself] at hd
    exact hunder hd
  · rw [hother hdc] at hd
    rw [State.go, horder]
    exact ⟨(h.underway d hd).1, fun hmem => (h.underway d hd).2 (htaken d hdc hmem)⟩
  · subst hdc
    exact hown e (hself.symm.trans hd)
  · exact h.own d e ((hother hdc).symm.trans hd)

theorem Orderly.write (h : Orderly s) (hc : s.phase c = .idle) (hb : s.link.broken = false) (n : Nat) :
    Orderly (s.go c .wrote ((s.link.push c).send n)) := by
  have hlost := h.intact hb
  have horder : ((s.link.push c).send n).order = s.link.order ++ [c] := by
    rw [Link.order_send, Link.order_push c hlost]
  have hnew : c ∉ s.link.order := h.idle c hc
  have hother {d : C} (hd : d ≠ c) : (s.go c .wrote ((s.link.push c).send n)).phase d = s.phase d :=
    Function.update_of_ne hd ..
  have hself : (s.go c .wrote ((s.link.push c).send n)).phase c = .wrote := Function.update_self ..
  refine ⟨?_, fun _ => hlost, fun d hd => ?_, fun d hd => ?_, fun d e hd => ?_⟩
  · rw [State.go, horder]
    exact List.nodup_append.mpr ⟨h.nodup, List.nodup_singleton c, fun a ha b hb => by
      rw [List.mem_singleton.mp hb]
      exact fun heq => hnew (heq ▸ ha)⟩
  all_goals by_cases hdc : d = c
  · rw [hdc, hself] at hd
    cases hd
  · rw [State.go, horder, List.mem_append, List.mem_singleton]
    exact fun hmem => hmem.elim (h.idle d ((hother hdc).symm.trans hd)) hdc
  · subst hdc
    rw [State.go, horder]
    exact ⟨List.mem_append_right _ (List.mem_singleton_self d), fun hmem => hnew (List.mem_append_left _ hmem)⟩
  · rw [hother hdc] at hd
    rw [State.go, horder]
    exact ⟨List.mem_append_left _ (h.underway d hd).1, (h.underway d hd).2⟩
  · rw [hdc, hself] at hd
    cases hd
  · exact h.own d e ((hother hdc).symm.trans hd)

/-- In its turn a call finds its own reply next. -/
theorem Orderly.next (h : Orderly s) (hc : s.phase c = .flushed) {e : ReadEnd} (hturn : inTurn s (.read c e) = true)
    {d : C} {rest : List C} (hr : s.link.replies = d :: rest) : d = c := by
  by_contra hd
  have horder : s.link.order = s.link.taken ++ d :: (rest ++ (s.link.peer ++ (s.link.buffer ++ s.link.lost))) := by
    rw [Link.order, hr, List.cons_append]
  have hbefore : d ∈ s.link.order.takeWhile (· ≠ c) := by
    rw [horder]
    exact mem_takeWhile_of_next hd (h.underway c (.inr hc)).2
  have htaken : d ∈ s.link.taken := by simpa using List.all_eq_true.mp hturn d hbefore
  have hnodup := h.nodup
  rw [horder, List.nodup_append] at hnodup
  exact hnodup.2.2 d htaken d List.mem_cons_self rfl

/-- Taking the next reply, in turn, with or without an error. -/
theorem Orderly.take (h : Orderly s) {rest : List C} (hr : s.link.replies = c :: rest) {p : Phase C}
    (hp : p = .failed ∨ p = .returned c) :
    Orderly (s.go c p {s.link with taken := s.link.taken ++ [c], replies := rest}) := by
  refine h.go ?_ (fun d hd hmem => ?_) h.intact ?_ ?_ ?_
  · rw [Link.order, Link.order, hr, List.append_assoc, List.singleton_append, List.cons_append]
  · exact (List.mem_append.mp hmem).resolve_right fun heq => hd (List.mem_singleton.mp heq)
  · rcases hp with rfl | rfl <;> nofun
  · rcases hp with rfl | rfl <;> rintro (heq | heq) <;> cases heq
  · rcases hp with rfl | rfl <;> rintro d heq <;> cases heq
    rfl

/-- A call returns with an error. -/
theorem Orderly.fail (h : Orderly s) {l : Link C} (horder : l.order = s.link.order) (htaken : l.taken = s.link.taken)
    (hintact : l.broken = false → l.lost = []) : Orderly (s.go c .failed l) :=
  h.go horder (fun _ _ hd => htaken ▸ hd) hintact nofun (by rintro (heq | heq) <;> cases heq) nofun

theorem Orderly.flush (h : Orderly s) (hc : s.phase c = .wrote) {l : Link C} (horder : l.order = s.link.order)
    (htaken : l.taken = s.link.taken) (hintact : l.broken = false → l.lost = []) : Orderly (s.go c .flushed l) := by
  refine h.go horder (fun _ _ hd => htaken ▸ hd) hintact nofun (fun _ => ?_) nofun
  rw [horder, htaken]
  exact h.underway c (.inl hc)

omit [DecidableEq C] in
theorem Orderly.answer (h : Orderly s) {rest : List C} (hpeer : s.link.peer = c :: rest) :
    Orderly {s with link := {s.link with replies := s.link.replies ++ [c], peer := rest}} := by
  have horder : ({s.link with replies := s.link.replies ++ [c], peer := rest} : Link C).order = s.link.order := by
    simp only [Link.order, hpeer, List.append_assoc, List.cons_append, List.nil_append]
  refine ⟨?_, h.intact, fun d hd => ?_, fun d hd => ?_, h.own⟩
  · rw [horder]
    exact h.nodup
  · rw [horder]
    exact h.idle d hd
  · rw [horder]
    exact h.underway d hd

theorem orderly_step {s' : State C} {e : Event C} (h : Orderly s) (hrule : inTurn s e = true)
    (hstep : step s e = some s') : Orderly s' := by
  have hsendFail (n : Nat) : (s.link.send n).fail.order = s.link.order := by rw [Link.order_fail, Link.order_send]
  cases e with
  | write c e =>
    simp only [step] at hstep
    split at hstep
    · rename_i hc
      split at hstep
      · cases hstep
        exact h.fail rfl rfl h.intact
      · split at hstep
        · cases hstep
        · rename_i hb
          cases hstep
          exact h.write hc (Bool.eq_false_iff.mpr hb) _
      · split at hstep
        · cases hstep
        · cases hstep
          exact h.fail (hsendFail _) rfl nofun
    · cases hstep
  | flush c failed =>
    simp only [step] at hstep
    split at hstep
    · rename_i hc
      split at hstep
      · cases hstep
        exact h.flush hc rfl rfl h.intact
      · rename_i hb
        split at hstep <;> cases hstep
        · exact h.flush hc (Link.order_send _ _) rfl fun _ => h.intact (Bool.eq_false_iff.mpr hb)
        · exact h.flush hc (hsendFail _) rfl nofun
    · cases hstep
  | answer =>
    simp only [step] at hstep
    split at hstep
    · cases hstep
    · rename_i hpeer
      cases hstep
      exact h.answer hpeer
  | read c e =>
    simp only [step] at hstep
    split at hstep
    · rename_i hc
      split at hstep
      · cases hstep
        exact h.fail rfl rfl h.intact
      · split at hstep
        · cases hstep
        · rename_i hr
          cases hstep
          cases h.next hc hrule hr
          exact h.take hr (.inl rfl)
      · split at hstep
        · cases hstep
        · rename_i hr
          cases hstep
          cases h.next hc hrule hr
          exact h.take hr (.inr rfl)
    · cases hstep

end

/-- **Replies match requests** in every run in which each call reads in its turn. -/
theorem own_replies {s : State C} (h : Reach step (fun s e => inTurn s e = true) (initial C) s) : OwnReplies s :=
  (h.invariant Orderly orderly_initial fun _ _ _ hs hr => orderly_step hs hr).own

end

section
variable {C : Type}

/-- Two round trips, one after the other has written. -/
def pipelined (i j : C) : List (Event C) :=
  [.write i (.done 0), .write j (.done 0), .flush i none, .flush j none, .answer, .answer]

theorem own_replies_pipelined :
    ∃ s, Reach step (fun s e => inTurn s e = true) (initial (Fin 2)) s ∧ s.phase 1 = .returned 1 ∧ OwnReplies s := by
  obtain ⟨s, hs, hf⟩ := exists_reach_of_play step inTurn (fun _ _ h => h) (initial (Fin 2))
    (pipelined 0 1 ++ [.read 0 .done, .read 1 .done]) (fun s => decide (s.phase 1 = .returned 1)) (by decide)
  exact ⟨s, hs, of_decide_eq_true hf, own_replies hs⟩

/-- **A call can get the reply to another's request**: the second one to write is the
first to read. -/
theorem not_own_replies : ¬∀ s, Reach step Free (initial (Fin 2)) s → OwnReplies s := by
  intro h
  obtain ⟨s, hs, hf⟩ := exists_reach_of_play step (fun _ _ => true) (fun _ _ _ => trivial) (initial (Fin 2))
    (pipelined 0 1 ++ [.read 1 .done]) (fun s => decide (s.phase 1 = .returned 0)) (by decide)
  exact absurd (h s hs 1 0 (of_decide_eq_true hf)) (by decide)

end

end AnarchoRedis.Protocol.Conn
