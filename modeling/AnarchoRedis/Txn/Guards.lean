import AnarchoRedis.Txn.Steps

/-! What a proxy can wait for.

A proxy answers once it has seen each key of its request unlocked, and any
handled message that names a key unlocks it, whoever locked it. So a lock on a
key stands for a write only while the write's own message is on the stream and
comes before any message, not yet handled, that names the key (`clear`). Then the
key stays locked until the write is appended, whatever the other connections do
(`guards_step`), and a proxy that still has to see the key unlocked answers no
earlier. `awaits_step` carries this through a step for any account of which
writes a request is to wait for. -/
namespace AnarchoRedis.Txn
open Base

section
variable {C : Type}

/-- Along the queue, the request's own message comes before any that names the key. -/
def ownFirst (id : Nat) (k : Bytes) : List Entry → Bool
  | [] => false
  | e :: rest => e.origin == some id || (!e.cmd.keys.contains k && ownFirst id k rest)

/-- The request's own message will be appended before any message that is not yet
handled unlocks the key. -/
def State.clear (s : State C) (id : Nat) (k : Bytes) : Bool :=
  s.current.all (fun d => !d.cmd.keys.contains k) && ownFirst id k s.pending

/-- A locked key that no message unlocks before the request is appended. -/
structure Guards (s : State C) (id : Nat) (k : Bytes) : Prop where
  locked : s.locked k = true
  clear : s.clear id k = true

/-- A guarded key is not one that is seen unlocked. -/
theorem Guards.ne_of_unlocked {s : State C} {id : Nat} {k k' : Bytes} (h : Guards s id k)
    (hk : s.locked k' = false) : k ≠ k' := by
  intro he
  have hl := h.locked
  rw [he, hk] at hl
  cases hl

theorem ownFirst_append {id : Nat} {k : Bytes} {queue : List Entry} (es : List Entry)
    (h : ownFirst id k queue = true) : ownFirst id k (queue ++ es) = true := by
  induction queue with
  | nil => cases h
  | cons e rest ih =>
    simp only [ownFirst, List.cons_append, Bool.or_eq_true, Bool.and_eq_true] at h ⊢
    exact h.imp_right fun hrest => ⟨hrest.1, ih hrest.2⟩

/-- Lock state, log and stream as they are, apart from more at the end of the
stream and more locks. -/
theorem Guards.extend {s s' : State C} {id : Nat} {k : Bytes} (h : Guards s id k) (es : List Entry)
    (hl : s.locked k = true → s'.locked k = true) (hp : s'.pending = s.pending ++ es)
    (hc : s'.current = s.current) : Guards s' id k := by
  have hclear := h.clear
  simp only [State.clear, Bool.and_eq_true] at hclear
  refine ⟨hl h.locked, ?_⟩
  simp only [State.clear, hc, hp, hclear.1, ownFirst_append es hclear.2, Bool.and_self]

variable [DecidableEq C]

/-- **A guarded key stays locked until the request is appended**, whatever step is
taken. -/
theorem guards_step {s s' : State C} {e : Event C} {id : Nat} {k : Bytes} (h : Moves s e s')
    (hg : Guards s id k) : s'.appended id = true ∨ Guards s' id k := by
  have hclear := hg.clear
  simp only [State.clear, Bool.and_eq_true] at hclear
  cases stream_step h with
  | same hp hc _ hl => exact .inr (hg.extend [] (fun hk => by rw [hl, hk]) (by rw [hp, List.append_nil]) hc)
  | lock keys hp hc _ hl =>
    refine .inr (hg.extend [] (fun hk => ?_) (by rw [hp, List.append_nil]) hc)
    rw [hl, lockKeys, hk, Bool.or_true]
  | emit es hp hc _ hl => exact .inr (hg.extend es (fun hk => by rw [hl, hk]) hp hc)
  | append d hc hp hc' hlog hl =>
    have hown := hclear.2
    rw [hp] at hown
    simp only [ownFirst, Bool.or_eq_true, Bool.and_eq_true] at hown
    rcases hown with hd | ⟨hd, hrest⟩
    · left
      simp [State.appended, hlog, hd]
    · right
      refine ⟨by rw [hl]; exact hg.locked, ?_⟩
      simp only [State.clear, hc', Option.all_some, hd, hrest, Bool.and_self]
  | unlock d hc hp hc' _ hl =>
    have hd := hclear.1
    rw [hc, Option.all_some] at hd
    right
    refine ⟨?_, ?_⟩
    · rw [hl, unlockKeys, hd, hg.locked, Bool.and_self]
    · simp only [State.clear, hc', hp, Option.all_none, hclear.2, Bool.and_self]

/-! ### Waiting for writes -/

/-- The write is appended, or one of the keys guards it. -/
def Held (s : State C) (id : Nat) (left : List Bytes) : Prop :=
  s.appended id = true ∨ ∃ k ∈ left, Guards s id k

omit [DecidableEq C] in
theorem Held.appended {s : State C} {id : Nat} (h : Held s id []) : s.appended id = true := by
  rcases h with ha | ⟨k, hk, _⟩
  · exact ha
  · cases hk

theorem held_step {s s' : State C} {e : Event C} {id : Nat} {left : List Bytes} (h : Moves s e s')
    (hh : Held s id left) : Held s' id left := by
  rcases hh with ha | ⟨k, hk, hg⟩
  · exact .inl (appended_step h ha)
  · exact (guards_step h hg).imp_right fun hg' => ⟨k, hk, hg'⟩

omit [DecidableEq C] in
/-- A key that is seen unlocked guards nothing. -/
theorem Held.see {s : State C} {id : Nat} {left : List Bytes} {k : Bytes} (hh : Held s id left)
    (hk : s.locked k = false) : Held s id (left.filter (· ≠ k)) := by
  refine hh.imp_right fun ⟨k', hk', hg⟩ => ⟨k', ?_, hg⟩
  have hne : k' ≠ k := hg.ne_of_unlocked hk
  simp [hk', hne]

/-- `due s r id`: the request `r` is to wait for the write numbered `id`. Those that
are answered have waited, those that wait have what is due held. -/
structure Awaits (due : State C → Request → Nat → Prop) (s : State C) : Prop where
  delivered : ∀ r ∈ s.delivered, ∀ id, due s r id → s.appended id = true
  awaiting : ∀ i r left, s.proxies i = .awaiting r left → ∀ id, due s r id → Held s id left

/-- A request keeps waiting for what is due, when `LockKeys` starts it so and
nothing becomes due later. -/
theorem awaits_step {due : State C → Request → Nat → Prop} {s s' : State C} {e : Event C}
    (hi : Awaits due s) (h : Moves s e s')
    (hdue : ∀ r id, r ∈ s.delivered ∨ (∃ i, (s.proxies i).answered = some r) → due s' r id → due s r id)
    (hlock : ∀ i r, e = .lock i → s.proxies i = .selected r → ∀ id, due s r id → Held s' id r.cmd.keys) :
    Awaits due s' := by
  constructor
  · intro r hr id hd
    rcases delivered_step h with hs | ⟨i, x, hp, hs⟩
    · rw [hs] at hr
      exact appended_step h (hi.delivered r hr id (hdue r id (.inl hr) hd))
    · rw [hs, List.mem_append, List.mem_singleton] at hr
      rcases hr with hr | rfl
      · exact appended_step h (hi.delivered r hr id (hdue r id (.inl hr) hd))
      · have hd := hdue r id (.inr ⟨i, by rw [hp, Proxy.answered]⟩) hd
        exact appended_step h (hi.awaiting i r [] hp id hd).appended
  · intro i r left hp id hd
    rcases awaiting_step h hp with hpre | ⟨rfl, hpre, rfl⟩ | ⟨k, before, hpre, hk, rfl⟩
    · have hd := hdue r id (.inr ⟨i, by rw [hpre, Proxy.answered]⟩) hd
      exact held_step h (hi.awaiting i r left hpre id hd)
    · exact hlock i r rfl hpre id (hdue r id (.inr ⟨i, by rw [hpre, Proxy.answered]⟩) hd)
    · have hd := hdue r id (.inr ⟨i, by rw [hpre, Proxy.answered]⟩) hd
      exact held_step h ((hi.awaiting i r before hpre id hd).see hk)

end

end AnarchoRedis.Txn
