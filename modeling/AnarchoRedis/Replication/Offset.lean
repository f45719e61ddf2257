import AnarchoRedis.Replication.Steps

/-! The offset that the subscriber counts.

Each turn of the read loop ends with `Offset.Add` of the size of the message read,
whatever the message was (`counted`). A `FULLRESYNC` is no exception: its turn stores
the leader's offset and then adds the size of the line, and the snapshot's turn adds
the size of the snapshot. So from the first command on the offset is ahead of the
leader's by the two (`after_resync`), and it follows the leader's only as long as no
command comes (`followsLeader_iff`). -/
namespace AnarchoRedis.Replication
open Base Protocol

section
variable (keys : Msg → List Bytes)

/-! ### Turns of the loop -/

/-- `StreamUpdates` by itself: the loop, and the callback in it. -/
def turnStep (s : Shared × Call) (ok : Bool) : Option (Shared × Call) := loopStep keys s.1 s.2 ok

/-- The offset after a turn. -/
def counted (offset : Int64) (m : Msg) : Int64 :=
  match dispatch m with
  | .resync _ stored => stored + m.size
  | _ => offset + m.size

def countedAll (offset : Int64) (ms : List Msg) : Int64 := ms.foldl counted offset

/-- The loop takes this message up and goes on. -/
def Action.goesOn : Action → Bool
  | .resync .. | .call | .skip => true
  | _ => false

/-- What the offset is while the messages `ms` are read, from where the loop stands. -/
def Counts (offset : Int64) (ms : List Msg) (sh : Shared) (c : Call) : Prop :=
  match c.loop with
  | .head | .reading => ∃ read, ms = read ++ c.inbox ∧ sh.offset = countedAll offset read
  | .got m => ∃ read, ms = read ++ m :: c.inbox ∧ sh.offset = countedAll offset read
  | .handling m _ => dispatch m = .call ∧ ∃ read, ms = read ++ m :: c.inbox ∧ sh.offset = countedAll offset read
  | .counting m => ∃ read, ms = read ++ m :: c.inbox ∧ sh.offset + m.size = countedAll offset (read ++ [m])
  | .idle | .dialing | .connected => False
  | _ => True

theorem countedAll_concat (offset : Int64) (read : List Msg) (m : Msg) :
    countedAll offset (read ++ [m]) = counted (countedAll offset read) m := by
  rw [countedAll, List.foldl_append]
  rfl

theorem counts_step {offset : Int64} {ms : List Msg} {sh sh' : Shared} {c c' : Call} {ok : Bool}
    (h : Counts offset ms sh c) (hmove : LoopMoves keys sh c ok sh' c') : Counts offset ms sh' c' := by
  cases hmove with
  | refuse hl | dial hl | start _ _ hl =>
    simp only [Counts, hl] at h
  | giveUp hl => trivial
  | turn hl | advance _ _ _ hl | append _ hl | unlock _ hl =>
    simp only [Counts, hl] at h ⊢
    exact h
  | take m rest hl _ hin =>
    simp only [Counts, hl, hin] at h ⊢
    exact h
  | crash => trivial
  | resync m id stored hl hd =>
    simp only [Counts, hl] at h ⊢
    obtain ⟨read, hms, -⟩ := h
    refine ⟨read, hms, ?_⟩
    rw [countedAll_concat, counted, hd]
  | pass m hl hd =>
    simp only [Counts, hl] at h ⊢
    exact ⟨hd, h⟩
  | skip m hl hd =>
    simp only [Counts, hl] at h ⊢
    obtain ⟨read, hms, hoffset⟩ := h
    refine ⟨read, hms, ?_⟩
    rw [countedAll_concat, counted, hd, hoffset]
  | finish m hl =>
    simp only [Counts, hl] at h ⊢
    obtain ⟨hd, read, hms, hoffset⟩ := h
    refine ⟨read, hms, ?_⟩
    rw [countedAll_concat, counted, hd, hoffset]
  | count m hl =>
    simp only [Counts, hl] at h ⊢
    obtain ⟨read, hms, hoffset⟩ := h
    refine ⟨read ++ [m], ?_, hoffset⟩
    rw [hms, List.append_assoc, List.singleton_append]
  | leave id hrun | lastWrite => trivial
  | lastRead panics | lastFail panics => cases panics <;> trivial

/-- **After any turns the offset is what was counted of the messages read.** -/
theorem offset_counted {sh : Shared} {c : Call} (hl : c.loop = .head) {s : Shared × Call}
    (h : Reach (turnStep keys) Free (sh, c) s) (hs : s.2.loop = .head) {read : List Msg}
    (hread : c.inbox = read ++ s.2.inbox) : s.1.offset = countedAll sh.offset read := by
  have hstart : Counts sh.offset c.inbox sh c := by
    simp only [Counts, hl]
    exact ⟨[], rfl, rfl⟩
  have hcounts : Counts sh.offset c.inbox s.1 s.2 :=
    h.invariant (fun s => Counts sh.offset c.inbox s.1 s.2) hstart fun _ _ _ hs _ hstep =>
      counts_step keys hs (loop_moves hstep)
  simp only [Counts, hs] at hcounts
  obtain ⟨read', hread', hoffset⟩ := hcounts
  rw [hread] at hread'
  rw [hoffset, List.append_cancel_right hread']

section
variable (sh : Shared) {c : Call} {m : Msg}

/-- The next message is read. -/
theorem reach_got {rest : List Msg} (hl : c.loop = .head) (hc : c.cancelled = false) (hin : c.inbox = m :: rest) :
    Reach (turnStep keys) Free (sh, c) (sh, {c with inbox := rest, loop := .got m}) := by
  have hturn : turnStep keys (sh, c) true = some (sh, {c with loop := .reading}) := by
    simp only [turnStep, loopStep, hl, hc]
    rfl
  have htake : turnStep keys (sh, {c with loop := .reading}) true =
      some (sh, {c with inbox := rest, loop := .got m}) := by
    simp only [turnStep, loopStep, hin]
    rfl
  exact .next (.next .start trivial hturn) trivial htake

/-- The callback goes through its phases when nothing fails. -/
theorem exists_handled (hl : c.loop = .handling m .entered) (hc : c.cancelled = false) :
    ∃ sh', Reach (turnStep keys) Free (sh, c) (sh', {c with loop := .counting m}) := by
  have hplay : play (turnStep keys) (fun _ _ => true) (sh, c) (List.replicate 6 true) =
      some ({sh with log := sh.log ++ [(m, sh.database)], removed := sh.removed ++ [keys m]},
        {c with loop := .counting m}) := by
    cases c
    cases hl
    cases hc
    rfl
  exact ⟨_, reach_of_play (fun _ _ _ => trivial) _ hplay⟩

/-- A message that the loop takes up comes to be counted. -/
theorem exists_counting (hl : c.loop = .got m) (hc : c.cancelled = false) (hm : (dispatch m).goesOn = true) :
    ∃ s, Reach (turnStep keys) Free (sh, c) s ∧
      s.2.loop = .counting m ∧ s.2.cancelled = false ∧ s.2.inbox = c.inbox := by
  have hstep : turnStep keys (sh, c) true = some (react sh c m) := by rw [turnStep, loopStep, hl]
  have hreact : Reach (turnStep keys) Free (sh, c) (react sh c m) := .next .start trivial hstep
  cases hd : dispatch m with
  | crash | fail | badResync =>
    rw [hd] at hm
    cases hm
  | resync | skip =>
    rw [react, hd] at hreact
    exact ⟨_, hreact, rfl, hc, rfl⟩
  | call =>
    rw [react, hd] at hreact
    obtain ⟨sh', hhandled⟩ :=
      exists_handled keys sh (c := {c with loop := .handling m .entered, passed := c.passed ++ [m]}) rfl hc
    exact ⟨_, hreact.trans hhandled, rfl, hc, rfl⟩

/-- It is read and counted, when nothing fails. -/
theorem exists_turn {rest : List Msg} (hl : c.loop = .head) (hc : c.cancelled = false) (hin : c.inbox = m :: rest)
    (hm : (dispatch m).goesOn = true) :
    ∃ s, Reach (turnStep keys) Free (sh, c) s ∧ s.2.loop = .head ∧ s.2.cancelled = false ∧ s.2.inbox = rest := by
  obtain ⟨s, hs, hcounting, hc', hin'⟩ :=
    exists_counting keys sh (c := {c with inbox := rest, loop := .got m}) rfl hc hm
  have hcount : turnStep keys s true = some ({s.1 with offset := s.1.offset + m.size}, {s.2 with loop := .head}) := by
    rw [turnStep, loopStep, hcounting]
  exact ⟨_, .next ((reach_got keys sh hl hc hin).trans hs) trivial hcount, rfl, hc', hin'⟩

end

end

/-! ### After a resynchronization -/

def resyncText (id : Bytes) (offset : Int64) : Bytes :=
  [32].intercalate [ascii "FULLRESYNC", id, formatInt offset.toInt]

/-- What the leader says with a `FULLRESYNC`. -/
structure Resync where
  id : Bytes
  noSpace : 32 ∉ id
  offset : Int64

def Resync.line (r : Resync) : Bytes := resyncText r.id r.offset

theorem dispatch_resync {r : Resync} {m : Msg} (hk : m.kind = .simpleString) (hs : m.str = r.line) :
    dispatch m = .resync r.id r.offset := by
  have hsplit : m.str.splitOn 32 = [ascii "FULLRESYNC", r.id, formatInt r.offset.toInt] := by
    rw [hs]
    refine List.splitOn_intercalate 32 (fun l hl => ?_) (List.cons_ne_nil _ _)
    rcases List.mem_cons.mp hl with rfl | hl
    · decide
    · rcases List.mem_cons.mp hl with rfl | hl
      · exact r.noSpace
      · rw [List.mem_singleton.mp hl]
        exact fun h => absurd (formatInt_ge h) (by decide)
  rw [dispatch, hk, hsplit]
  simp only [List.head?_cons, if_true, fullResync, parseInt_formatInt]

/-- A `FULLRESYNC`, perhaps a snapshot, and commands; sizes are those on the wire. -/
structure Resynced (r : Resync) (first : Msg) (snapshot : Option Msg) (cmds : List Msg) : Prop where
  first_kind : first.kind = .simpleString
  first_str : first.str = r.line
  first_size : 0 < first.size.toInt
  snapshot_kind : ∀ m ∈ snapshot, m.kind = .bulkString
  snapshot_size : ∀ m ∈ snapshot, 0 < m.size.toInt
  cmds_kind : ∀ m ∈ cmds, m.kind = .array ∧ m.array ≠ []

def sizes (ms : List Msg) : Int64 := (ms.map Msg.size).sum

/-- Whenever the loop has gone on from a command, the offset is the leader's plus the
sizes of the commands up to it. -/
def FollowsLeader (keys : Msg → List Bytes) (sh : Shared) (c : Call) (offset : Int64) (cmds : List Msg) : Prop :=
  ∀ n s, 0 < n → n ≤ cmds.length → Reach (turnStep keys) Free (sh, c) s → s.2.loop = .head →
    s.2.inbox = cmds.drop n → s.1.offset = offset + sizes (cmds.take n)

section
variable {r : Resync} {first : Msg} {snapshot : Option Msg} {cmds : List Msg}

theorem dispatch_bulk {m : Msg} (h : m.kind = .bulkString) : dispatch m = .skip := by
  rw [dispatch, h]

theorem dispatch_command {m : Msg} (h : m.kind = .array ∧ m.array ≠ []) : dispatch m = .call ∨ dispatch m = .skip := by
  obtain ⟨hk, hne⟩ := h
  obtain ⟨name, args, harray⟩ := List.exists_cons_of_ne_nil hne
  rw [dispatch, hk, harray]
  by_cases hping : name ≠ ascii "PING"
  · exact .inl (if_pos hping)
  · exact .inr (if_neg hping)

/-- Without a `FULLRESYNC` among them messages are counted by their sizes. -/
theorem countedAll_sizes {ms : List Msg} (h : ∀ m ∈ ms, dispatch m = .call ∨ dispatch m = .skip) (offset : Int64) :
    countedAll offset ms = offset + sizes ms := by
  induction ms generalizing offset with
  | nil => exact (Int64.add_zero offset).symm
  | cons m ms ih =>
    have hm : counted offset m = offset + m.size := by
      rcases h m List.mem_cons_self with hd | hd <;> rw [counted, hd]
    rw [countedAll, List.foldl_cons, hm, ← countedAll, ih fun m' hm' => h m' (List.mem_cons_of_mem _ hm'), sizes, sizes,
      List.map_cons, List.sum_cons, Int64.add_assoc]

theorem Resynced.skips (h : Resynced r first snapshot cmds) {m : Msg} (hm : m ∈ snapshot.toList ++ cmds) :
    dispatch m = .call ∨ dispatch m = .skip := by
  rcases List.mem_append.mp hm with hm | hm
  · exact .inr (dispatch_bulk (h.snapshot_kind m (Option.mem_toList.mp hm)))
  · exact dispatch_command (h.cmds_kind m hm)

/-- How far the offset is ahead of the leader's. -/
def drift (first : Msg) (snapshot : Option Msg) : Int64 := first.size + sizes snapshot.toList

theorem sizes_append (a b : List Msg) : sizes (a ++ b) = sizes a + sizes b := by
  rw [sizes, List.map_append, List.sum_append]
  rfl

theorem Resynced.countedAll (h : Resynced r first snapshot cmds) (offset : Int64) (n : Nat) :
    countedAll offset (first :: (snapshot.toList ++ cmds.take n)) =
      r.offset + sizes (cmds.take n) + drift first snapshot := by
  have hfirst : counted offset first = r.offset + first.size := by
    rw [counted, dispatch_resync h.first_kind h.first_str]
  have hrest : ∀ m ∈ snapshot.toList ++ cmds.take n, dispatch m = .call ∨ dispatch m = .skip := by
    intro m hm
    refine h.skips ?_
    rcases List.mem_append.mp hm with hm | hm
    · exact List.mem_append_left _ hm
    · exact List.mem_append_right _ (List.mem_of_mem_take hm)
  rw [Replication.countedAll, List.foldl_cons, hfirst, ← Replication.countedAll, countedAll_sizes hrest, sizes_append,
    drift]
  ac_rfl

theorem add_ne_zero_of_pos {a b : Int64} (ha : 0 < a.toInt) (hb : 0 ≤ b.toInt) : a + b ≠ 0 := by
  intro h
  have hsum : (a.toInt + b.toInt).bmod (2 ^ 64) = 0 := by
    rw [← Int64.toInt_add, h]
    rfl
  have ha' := a.toInt_lt
  have hb' := b.toInt_lt
  rw [Int.bmod_def] at hsum
  split at hsum <;> omega

theorem Resynced.drift_ne_zero (h : Resynced r first snapshot cmds) : drift first snapshot ≠ 0 := by
  refine add_ne_zero_of_pos h.first_size ?_
  cases hs : snapshot with
  | none => decide
  | some m =>
    have hsize : sizes (some m).toList = m.size := Int64.add_zero m.size
    rw [hsize]
    exact (h.snapshot_size m hs).le

/-- After the resynchronization the offset is ahead by the sizes of the line and the
snapshot. -/
theorem Resynced.offset (h : Resynced r first snapshot cmds) {keys : Msg → List Bytes} {sh : Shared} {c : Call}
    (hl : c.loop = .head) (hin : c.inbox = first :: (snapshot.toList ++ cmds)) {n : Nat} {s : Shared × Call}
    (hs : Reach (turnStep keys) Free (sh, c) s) (hhead : s.2.loop = .head) (hinbox : s.2.inbox = cmds.drop n) :
    s.1.offset = r.offset + sizes (cmds.take n) + drift first snapshot := by
  have hread : c.inbox = (first :: (snapshot.toList ++ cmds.take n)) ++ s.2.inbox := by
    rw [hin, hinbox, List.cons_append, List.append_assoc, List.take_append_drop]
  rw [offset_counted keys hl hs hhead hread, h.countedAll]

/-- A run that gets past the first command. -/
theorem Resynced.exists_first (h : Resynced r first snapshot cmds) (keys : Msg → List Bytes) {sh : Shared} {c : Call}
    (hl : c.loop = .head) (hc : c.cancelled = false) (hin : c.inbox = first :: (snapshot.toList ++ cmds))
    {cmd : Msg} {rest : List Msg} (hcmds : cmds = cmd :: rest) :
    ∃ s, Reach (turnStep keys) Free (sh, c) s ∧ s.2.loop = .head ∧ s.2.inbox = rest := by
  have hgoes {m : Msg} (hm : m ∈ snapshot.toList ++ cmds) : (dispatch m).goesOn = true := by
    rcases h.skips hm with hd | hd <;> rw [hd] <;> rfl
  have hcmd : cmd ∈ snapshot.toList ++ cmds := List.mem_append_right _ (hcmds ▸ List.mem_cons_self)
  have hfirst : (dispatch first).goesOn = true := by
    rw [dispatch_resync h.first_kind h.first_str]
    rfl
  obtain ⟨s₁, hr₁, hl₁, hc₁, hin₁⟩ := exists_turn keys sh hl hc hin hfirst
  cases hs : snapshot with
  | none =>
    rw [hs, hcmds] at hin₁
    obtain ⟨s₂, hr₂, hl₂, -, hin₂⟩ := exists_turn keys s₁.1 hl₁ hc₁ hin₁ (hgoes hcmd)
    exact ⟨s₂, hr₁.trans hr₂, hl₂, hin₂⟩
  | some m =>
    have hm : m ∈ snapshot.toList ++ cmds := List.mem_append_left _ (hs ▸ List.mem_singleton_self m)
    rw [hs, hcmds] at hin₁
    obtain ⟨s₂, hr₂, hl₂, hc₂, hin₂⟩ := exists_turn keys s₁.1 hl₁ hc₁ hin₁ (hgoes hm)
    obtain ⟨s₃, hr₃, hl₃, -, hin₃⟩ := exists_turn keys s₂.1 hl₂ hc₂ hin₂ (hgoes hcmd)
    exact ⟨s₃, (hr₁.trans hr₂).trans hr₃, hl₃, hin₃⟩

/-- **The offset follows the leader's exactly when no command comes**: from the first
command on it is ahead of it. -/
theorem followsLeader_iff (keys : Msg → List Bytes) (sh : Shared) {c : Call} (h : Resynced r first snapshot cmds)
    (hl : c.loop = .head) (hc : c.cancelled = false) (hin : c.inbox = first :: (snapshot.toList ++ cmds)) :
    FollowsLeader keys sh c r.offset cmds ↔ cmds = [] := by
  constructor
  · intro hfollows
    cases hcmds : cmds with
    | nil => rfl
    | cons cmd rest =>
      obtain ⟨s, hs, hhead, hinbox⟩ := h.exists_first keys hl hc hin hcmds
      have hdrop : s.2.inbox = cmds.drop 1 := by rw [hinbox, hcmds, List.drop_one, List.tail_cons]
      have hlen : 1 ≤ cmds.length := by rw [hcmds]; exact Nat.succ_pos _
      have hoffset := hfollows 1 s Nat.one_pos hlen hs hhead hdrop
      rw [h.offset hl hin hs hhead hdrop] at hoffset
      exact absurd (by simpa using hoffset) h.drift_ne_zero
  · rintro rfl n s hpos hlen
    exact absurd hpos (Nat.not_lt.mpr hlen)

end

/-- The line of a `FULLRESYNC`, as a message. -/
def resyncLine (r : Resync) : Msg := ⟨0, .simpleString, r.line, [], Int64.ofNat (r.line.length + 3)⟩

def setCommand : Msg := ⟨1, .array, [], [ascii "SET", ascii "k", ascii "1"], 27⟩

def firstSync : Resync := ⟨ascii "a1", by decide, 100⟩

theorem followsLeader_iff_none :
    FollowsLeader (fun _ => []) {} {loop := .head, inbox := [resyncLine firstSync]} 100 [] := by
  have hsync : Resynced firstSync (resyncLine firstSync) none [] := by
    refine ⟨rfl, rfl, by decide, ?_, ?_, ?_⟩ <;> intro m hm <;> cases hm
  exact (followsLeader_iff (fun _ => []) {} hsync rfl rfl rfl).mpr rfl

/-- **The offset is off by the line of the `FULLRESYNC`** after the first command. -/
theorem not_followsLeader :
    ¬∀ (c : Call) (cmds : List Msg), c.loop = .head → c.inbox = resyncLine firstSync :: cmds →
      FollowsLeader (fun _ => []) {} c 100 cmds := by
  intro h
  obtain ⟨s, hs, hf⟩ := exists_reach_of_play (turnStep fun _ => []) (fun _ _ => true) (fun _ _ _ => trivial)
    ({}, {loop := .head, inbox := [resyncLine firstSync, setCommand]}) (List.replicate 14 true)
    (fun s => decide (s.2.loop = .head ∧ s.2.inbox = [] ∧ s.1.offset ≠ 127)) (by decide)
  obtain ⟨hhead, hinbox, hoffset⟩ := of_decide_eq_true hf
  exact hoffset (h _ [setCommand] rfl rfl 1 s Nat.one_pos (by decide) hs hhead hinbox)

end AnarchoRedis.Replication
