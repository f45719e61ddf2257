import AnarchoRedis.Raft.Store

/-! What `DeleteRange` deletes.

One walk visits the keys from the first log on that read as an index of at most
`max` (`visited`): logs, and when no log lies beyond `max` also stable keys, which
are read as if they were logs (`Overruns`). It deletes the copies of what it
visited; a walk that finds its transaction full has deleted those before the key it
is at, and the next one starts from the index read there (`deleteRange_returns`).

From one walk to the next the store only gets thinner (`Thinned`), and a later walk
overruns no stable key that the first would not come to. -/
namespace AnarchoRedis.Raft
open Base Base.ByteOrder

/-- The index that is read from a stable key. -/
def confIndex (k : Bytes) : UInt64 := copiedIndex (confKey k)

/-! ### One walk -/

section
variable {f : Faults} {max start : UInt64} {db : Db}

/-- The keys up to the first that reads as more than `max`. -/
def upTo (max : UInt64) (keys : List Bytes) : List Bytes := keys.takeWhile fun key => decide (copiedIndex key ≤ max)

def visited (max start : UInt64) (db : Db) : List Bytes := upTo max (db.keysFrom (logKey start))

def deletes (keys : List Bytes) : Txn := keys.map fun key => .delete (copied key)

def remove (keys : List Bytes) (db : Db) : Db := commit (deletes keys) db

theorem upTo_cons_of_le {key : Bytes} (h : copiedIndex key ≤ max) (keys : List Bytes) :
    upTo max (key :: keys) = key :: upTo max keys := List.takeWhile_cons_of_pos (decide_eq_true h)

theorem upTo_cons_of_gt {key : Bytes} (h : copiedIndex key > max) (keys : List Bytes) :
    upTo max (key :: keys) = [] :=
  List.takeWhile_cons_of_neg fun hle => UInt64.not_le.mpr h (of_decide_eq_true hle)

theorem append_deletes_cons (txn : Txn) (key : Bytes) (keys : List Bytes) :
    txn ++ deletes (key :: keys) = txn ++ [.delete (copied key)] ++ deletes keys := by
  rw [List.append_assoc]
  rfl

/-- What is known of how a walk ended. -/
def Walked (max : UInt64) (keys : List Bytes) (txn : Txn) : Walk → Prop
  | .finished txn' _ => txn' = txn ++ deletes (upTo max keys)
  | .full index txn' _ =>
    txn' ≠ [] ∧ ∃ front key back,
      upTo max keys = front ++ key :: back ∧ index = copiedIndex key ∧ txn' = txn ++ deletes front
  | .failed _ => True

theorem Walked.cons {key : Bytes} {keys : List Bytes} {txn : Txn} {w : Walk} (hle : copiedIndex key ≤ max)
    (h : Walked max keys (txn ++ [.delete (copied key)]) w) : Walked max (key :: keys) txn w := by
  cases w with
  | finished txn' t =>
    change _ = _ at h
    rw [Walked, h, upTo_cons_of_le hle, append_deletes_cons]
  | full index txn' t =>
    obtain ⟨hne, front, x, back, hup, hindex, htxn⟩ := h
    refine ⟨hne, key :: front, x, back, ?_, hindex, ?_⟩
    · rw [upTo_cons_of_le hle, hup, List.cons_append]
    · rw [htxn, append_deletes_cons]
  | failed err => trivial

theorem modified_full {t : Nat} {txn : Txn} (h : f.modified t txn = some .txnTooBig) : txn ≠ [] := by
  rintro rfl
  rw [Faults.modified] at h
  split at h
  · cases h
  · rename_i hne
    exact hne ⟨rfl, h⟩

theorem deleteLoop_walked (f : Faults) (max : UInt64) (keys : List Bytes) (txn : Txn) (t : Nat) :
    Walked max keys txn (deleteLoop f max keys txn t) := by
  induction keys generalizing txn t with
  | nil => exact (List.append_nil txn).symm
  | cons key keys ih =>
    rw [deleteLoop]
    split
    · rename_i hgt
      rw [Walked, upTo_cons_of_gt hgt]
      exact (List.append_nil txn).symm
    · rename_i hgt
      have hle : copiedIndex key ≤ max := UInt64.not_lt.mp hgt
      split
      · rename_i hfull
        exact ⟨modified_full hfull, [], key, upTo max keys, upTo_cons_of_le hle keys, rfl, (List.append_nil txn).symm⟩
      · trivial
      · exact (ih _ _).cons hle

theorem deleteLoop_ends_full {keys : List Bytes} {txn txn' : Txn} {t t' : Nat} {index : UInt64}
    (h : deleteLoop f max keys txn t = .full index txn' t') : f.modify t' = some .txnTooBig := by
  induction keys generalizing txn t with
  | nil => cases h
  | cons key keys ih =>
    rw [deleteLoop] at h
    split at h
    · cases h
    · split at h
      · rename_i hfull
        cases h
        rw [Faults.modified] at hfull
        split at hfull
        · cases hfull
        · exact hfull
      · cases h
      · exact ih h

/-- **The rule of `DeleteRange`.** What a full walk carries over to the next, and what
follows of the last one, holds of the store when it returns without an error; one that
fails leaves what the last full walk has. -/
theorem deleteRange_returns (Inv : UInt64 → Db → Prop) (Post : Db → Prop)
    (hfull : ∀ start db front key back t, f.modify t = some .txnTooBig → visited max start db = front ++ key :: back →
      front ≠ [] → Inv start db → Inv (copiedIndex key) (remove front db))
    (hfinish : ∀ start db, Inv start db → Post (remove (visited max start db) db))
    {fuel t : Nat} {err : Option Err} {r : Db} (hinv : Inv start db)
    (h : deleteRange f max fuel t start db = some (err, r)) :
    err = none ∧ Post r ∨ err ≠ none ∧ ∃ start', Inv start' r := by
  induction fuel generalizing t start db with
  | zero => cases h
  | succ fuel ih =>
    have hwalk := deleteLoop_walked f max (db.keysFrom (logKey start)) [] t
    rw [deleteRange] at h
    split at h
    · cases h
      exact .inr ⟨Option.some_ne_none _, start, hinv⟩
    · rename_i hend
      rw [hend, Walked, List.nil_append] at hwalk
      split at h
      · cases h
        exact .inr ⟨Option.some_ne_none _, start, hinv⟩
      · cases h
        rw [hwalk]
        exact .inl ⟨rfl, hfinish start db hinv⟩
    · rename_i hend
      have hfault := deleteLoop_ends_full hend
      rw [hend] at hwalk
      obtain ⟨hne, front, key, back, hup, rfl, rfl⟩ := hwalk
      split at h
      · cases h
        exact .inr ⟨Option.some_ne_none _, start, hinv⟩
      · refine ih (hfull start db front key back _ hfault hup ?_ hinv) h
        intro hnil
        rw [hnil] at hne
        exact hne rfl

/-- The rule for a call without an error, wherever its transactions are full. -/
theorem deleteRange_rule (Inv : UInt64 → Db → Prop) (Post : Db → Prop)
    (hfull : ∀ start db front key back, visited max start db = front ++ key :: back → front ≠ [] →
      Inv start db → Inv (copiedIndex key) (remove front db))
    (hfinish : ∀ start db, Inv start db → Post (remove (visited max start db) db))
    {fuel t : Nat} {r : Db} (hinv : Inv start db) (h : deleteRange f max fuel t start db = some (none, r)) : Post r := by
  rcases deleteRange_returns Inv Post (fun start db front key back _ _ => hfull start db front key back) hfinish hinv h
    with ⟨-, hpost⟩ | ⟨herr, -⟩
  · exact hpost
  · exact absurd rfl herr

/-! ### Walks that meet no fault, or one -/

theorem deleteLoop_finished {t : Nat} (hf : ∀ u, t ≤ u → f.modify u = none) (max : UInt64) (keys : List Bytes)
    (txn : Txn) : ∃ u, deleteLoop f max keys txn t = .finished (txn ++ deletes (upTo max keys)) u := by
  induction keys generalizing txn t with
  | nil => exact ⟨t, congrArg (Walk.finished · t) (List.append_nil txn).symm⟩
  | cons key keys ih =>
    rw [deleteLoop]
    split
    · rename_i hgt
      rw [upTo_cons_of_gt hgt]
      exact ⟨t, congrArg (Walk.finished · t) (List.append_nil txn).symm⟩
    · rename_i hgt
      have hmod : f.modified t txn = none := by simp [Faults.modified, hf t le_rfl]
      obtain ⟨u, hend⟩ := ih (t := t + 1) (fun v hv => hf v (by omega)) (txn ++ [.delete (copied key)])
      refine ⟨u, ?_⟩
      rw [hmod, upTo_cons_of_le (UInt64.not_lt.mp hgt), append_deletes_cons]
      exact hend

theorem deleteLoop_full {keys front back : List Bytes} {key : Bytes} (hup : upTo max keys = front ++ key :: back)
    {txn : Txn} (hne : txn ++ deletes front ≠ []) (t : Nat) :
    deleteLoop (fullAt (t + front.length)) max keys txn t =
      .full (copiedIndex key) (txn ++ deletes front) (t + front.length) := by
  induction keys generalizing front txn t with
  | nil => cases front <;> cases hup
  | cons x keys ih =>
    have hle : copiedIndex x ≤ max := by
      by_contra hgt
      rw [upTo_cons_of_gt (UInt64.not_le.mp hgt)] at hup
      cases front <;> cases hup
    rw [upTo_cons_of_le hle] at hup
    rw [deleteLoop, if_neg (UInt64.not_lt.mpr hle)]
    cases front with
    | nil =>
      obtain ⟨rfl, -⟩ := List.cons.inj hup
      have htxn : txn ≠ [] := fun hnil => hne (by rw [hnil]; rfl)
      have hmod : (fullAt (t + 0)).modified t txn = some .txnTooBig := by simp [Faults.modified, fullAt, htxn]
      rw [List.length_nil, hmod]
      exact congrArg (Walk.full _ · t) (List.append_nil txn).symm
    | cons y front =>
      obtain ⟨rfl, hrest⟩ := List.cons.inj hup
      have hmod : (fullAt (t + (front.length + 1))).modified t txn = none := by simp [Faults.modified, fullAt]
      rw [append_deletes_cons] at hne ⊢
      rw [List.length_cons, hmod, ← Nat.add_assoc, Nat.add_right_comm]
      exact ih hrest hne (t + 1)

/-- Without a fault, one walk deletes everything it visits. -/
theorem deleteRange_one {t : Nat} (hf : ∀ u, t ≤ u → f.modify u = none) (hc : ∀ u, f.commit u = none) (fuel : Nat) :
    deleteRange f max (fuel + 1) t start db = some (none, remove (visited max start db) db) := by
  obtain ⟨u, hend⟩ := deleteLoop_finished hf max (db.keysFrom (logKey start)) []
  rw [deleteRange, hend]
  simp only [hc]
  rfl

/-- With a full transaction at a key that is not the first, a second walk follows. -/
theorem deleteRange_two {front back : List Bytes} {key : Bytes} (hup : visited max start db = front ++ key :: back)
    (hne : front ≠ []) :
    deleteRange (fullAt front.length) max 2 0 start db =
      some (none, remove (visited max (copiedIndex key) (remove front db)) (remove front db)) := by
  have hdel : [] ++ deletes front ≠ [] := by simpa [deletes] using hne
  have hend := deleteLoop_full hup hdel 0
  rw [Nat.zero_add] at hend
  rw [deleteRange, hend]
  refine deleteRange_one (fun u hu => ?_) (fun _ => rfl) 0
  exact if_neg (by omega)

/-! ### What is visited -/

theorem mem_visited {x : Bytes} :
    x ∈ visited max start db ↔
      ((db.get x).isSome = true ∧ ¬x < logKey start) ∧
      ∀ y, (db.get y).isSome = true → ¬y < logKey start → ¬x < y → copiedIndex y ≤ max := by
  rw [visited, upTo, mem_takeWhile_iff (db.keysFrom_sorted _)]
  simp only [SortedMap.mem_keysFrom, decide_eq_true_eq, not_lt, and_imp]

theorem visited_sorted (max start : UInt64) (db : Db) : (visited max start db).Pairwise (· < ·) :=
  (db.keysFrom_sorted _).sublist (List.takeWhile_sublist _)

/-- The walk visits the logs of its range. -/
theorem mem_visited_log (hform : Formed db) {i : UInt64} :
    logKey i ∈ visited max start db ↔ HasLog db i ∧ start ≤ i ∧ i ≤ max := by
  rw [mem_visited, logKey_lt_iff, UInt64.not_lt, and_assoc]
  refine and_congr_right fun hi => and_congr_right fun hstart => ⟨fun h => ?_, fun h y hy _ hyi => ?_⟩
  · rw [← copiedIndex_logKey i]
    exact h _ hi (by rwa [logKey_lt_iff, UInt64.not_lt]) (lt_irrefl _)
  · rcases hform y hy with ⟨j, rfl⟩ | ⟨k, rfl⟩
    · rw [logKey_lt_iff, UInt64.not_lt] at hyi
      rw [copiedIndex_logKey]
      exact UInt64.le_trans hyi h
    · exact absurd (logKey_lt_confKey i k) hyi

/-- The walk from `start` comes to a stable key: no log from `start` on lies beyond
`max`, nor does what is read from it and the stable keys before it. -/
structure Overruns (db : Db) (start max : UInt64) (k : Bytes) : Prop where
  stored : HasConf db k
  noLog : ∀ i, HasLog db i → start ≤ i → i ≤ max
  noConf : ∀ l, HasConf db l → ¬k < l → confIndex l ≤ max

theorem mem_visited_conf (hform : Formed db) {k : Bytes} :
    confKey k ∈ visited max start db ↔ Overruns db start max k := by
  have hstart (l : Bytes) : ¬confKey l < logKey start := (logKey_lt_confKey start l).asymm
  rw [mem_visited]
  constructor
  · rintro ⟨⟨hk, -⟩, hall⟩
    refine ⟨hk, fun i hi hge => ?_, fun l hl hkl => hall _ hl (hstart l) (by rwa [confKey_lt_iff])⟩
    rw [← copiedIndex_logKey i]
    exact hall _ hi (by rwa [logKey_lt_iff, UInt64.not_lt]) (logKey_lt_confKey i k).asymm
  · rintro ⟨hk, hlog, hconf⟩
    refine ⟨⟨hk, hstart k⟩, fun y hy hge hky => ?_⟩
    rcases hform y hy with ⟨i, rfl⟩ | ⟨l, rfl⟩
    · rw [logKey_lt_iff, UInt64.not_lt] at hge
      rw [copiedIndex_logKey]
      exact hlog i hy hge
    · exact hconf l hy (by rwa [confKey_lt_iff] at hky)

/-! ### What is removed -/

theorem get_remove (keys : List Bytes) (db : Db) (x : Bytes) :
    (remove keys db).get x = if x ∈ keys.map copied then none else db.get x := by
  induction keys generalizing db with
  | nil => rfl
  | cons key keys ih =>
    change (remove keys (db.erase (copied key))).get x = _
    rw [ih, SortedMap.get_erase, List.map_cons]
    by_cases hx : x = copied key
    · simp [hx]
    · simp [hx]

theorem get_remove_of_mem {keys : List Bytes} {x : Bytes} (h : x ∈ keys.map copied) (db : Db) :
    (remove keys db).get x = none := by rw [get_remove, if_pos h]

theorem get_remove_of_notMem {keys : List Bytes} {x : Bytes} (h : x ∉ keys.map copied) (db : Db) :
    (remove keys db).get x = db.get x := by rw [get_remove, if_neg h]

theorem isSome_of_remove {keys : List Bytes} {x : Bytes} (h : ((remove keys db).get x).isSome = true) :
    x ∉ keys.map copied ∧ (db.get x).isSome = true := by
  rw [get_remove] at h
  split at h
  · cases h
  · rename_i hx
    exact ⟨hx, h⟩

theorem Formed.remove (h : Formed db) (keys : List Bytes) : Formed (remove keys db) :=
  fun key hkey => h key (isSome_of_remove hkey).2

theorem formed_of_mem_visited (hform : Formed db) {x : Bytes} (hx : x ∈ visited max start db) :
    (∃ i, x = logKey i) ∨ ∃ k, x = confKey k := hform x (mem_visited.mp hx).1.1

/-- A log is removed when it is visited, and log zero when a long stable key is. -/
theorem logKey_copied (hform : Formed db) {keys : List Bytes} (hsub : keys ⊆ visited max start db) {i : UInt64}
    (h : logKey i ∈ keys.map copied) : logKey i ∈ keys ∨ i = 0 ∧ ∃ k, confKey k ∈ keys ∧ 8 < k.length := by
  obtain ⟨x, hx, hcopy⟩ := List.mem_map.mp h
  rcases formed_of_mem_visited hform (hsub hx) with ⟨j, rfl⟩ | ⟨k, rfl⟩
  · rw [copied_logKey] at hcopy
    exact .inl (hcopy ▸ hx)
  · by_cases hlong : 8 < k.length
    · rw [copied_long hlong] at hcopy
      exact .inr ⟨(logKey_injective hcopy).symm, k, hx, hlong⟩
    · rw [copied_short (not_lt.mp hlong)] at hcopy
      exact absurd hcopy.symm (logKey_ne_confKey _ _)

/-- A stable key is removed when it is a short one that is visited, filled up with zeros. -/
theorem confKey_copied (hform : Formed db) {keys : List Bytes} (hsub : keys ⊆ visited max start db) {k : Bytes}
    (h : confKey k ∈ keys.map copied) :
    ∃ l, confKey l ∈ keys ∧ l.length ≤ 8 ∧ k = l ++ List.replicate (8 - l.length) 0 := by
  obtain ⟨x, hx, hcopy⟩ := List.mem_map.mp h
  rcases formed_of_mem_visited hform (hsub hx) with ⟨j, rfl⟩ | ⟨l, rfl⟩
  · rw [copied_logKey] at hcopy
    exact absurd hcopy (logKey_ne_confKey _ _)
  · by_cases hlong : 8 < l.length
    · rw [copied_long hlong] at hcopy
      exact absurd hcopy (logKey_ne_confKey _ _)
    · rw [copied_short (not_lt.mp hlong)] at hcopy
      exact ⟨l, hx, not_lt.mp hlong, (confKey_injective hcopy).symm⟩

/-- A key filled up with zeros reads as the same index. -/
theorem confIndex_fill {l : Bytes} (h : l.length ≤ 8) (n : Nat) (hn : l.length + n ≤ 8) :
    confIndex (l ++ List.replicate n 0) = confIndex l := by
  have hlen : (l ++ List.replicate n (0 : UInt8)).length = l.length + n := by simp
  rw [confIndex, confIndex, copiedIndex, copiedIndex, copied_short h, copied_short (by omega), hlen, List.append_assoc,
    List.replicate_append_replicate]
  congr 5
  omega

end

/-! ### From walk to walk -/

/-- What the walks of `DeleteRange(min, max)` on a store `db₀` leave to the next. -/
structure Thinned (db₀ : Db) (min max start : UInt64) (db : Db) : Prop where
  formed : Formed db
  subset : ∀ key, (db.get key).isSome = true → (db₀.get key).isSome = true
  begins : start = min ∨ start ≤ max
  beyond : ∀ i, max < i → HasLog db₀ i → HasLog db i
  gone : ∀ k, HasConf db₀ k → ¬HasConf db k → confIndex k ≤ max

section
variable {db₀ db : Db} {min max start : UInt64}

theorem thinned_refl (hform : Formed db₀) : Thinned db₀ min max min db₀ where
  formed := hform
  subset _ := id
  begins := .inl rfl
  beyond _ _ := id
  gone _ hk hno := absurd hk hno

/-- A later walk overruns only what the first would come to. -/
theorem Thinned.overruns (h : Thinned db₀ min max start db) {k : Bytes} (hk : Overruns db start max k) :
    Overruns db₀ min max k where
  stored := h.subset _ hk.stored
  noLog i hi hmin := by
    by_contra hgt
    have hlt : max < i := UInt64.not_le.mp hgt
    refine hgt (hk.noLog i (h.beyond i hlt hi) ?_)
    rcases h.begins with rfl | hstart
    · exact hmin
    · exact UInt64.le_trans hstart (UInt64.le_of_lt hlt)
  noConf l hl hkl := by
    by_cases hstill : HasConf db l
    · exact hk.noConf l hstill hkl
    · exact h.gone l hl hstill

theorem Thinned.remove (h : Thinned db₀ min max start db) {front : List Bytes} (hsub : front ⊆ visited max start db)
    {start' : UInt64} (hstart : start' ≤ max) : Thinned db₀ min max start' (remove front db) where
  formed := h.formed.remove front
  subset key hkey := h.subset key (isSome_of_remove hkey).2
  begins := .inr hstart
  beyond i hi hlog := by
    have hnot : logKey i ∉ front.map copied := by
      intro hmem
      rcases logKey_copied h.formed hsub hmem with hin | ⟨rfl, -⟩
      · exact UInt64.not_le.mpr hi ((mem_visited_log h.formed).mp (hsub hin)).2.2
      · exact UInt64.not_lt.mpr UInt64.zero_le hi
    rw [HasLog, get_remove_of_notMem hnot]
    exact h.beyond i hi hlog
  gone k hk hno := by
    by_cases hstill : HasConf db k
    · have hmem : confKey k ∈ front.map copied := by
        by_contra hnot
        exact hno (by rwa [HasConf, get_remove_of_notMem hnot])
      obtain ⟨l, hl, hshort, rfl⟩ := confKey_copied h.formed hsub hmem
      have hover := (mem_visited_conf h.formed).mp (hsub hl)
      rw [confIndex_fill hshort _ (by omega)]
      exact hover.noConf l hover.stored (lt_irrefl l)
    · exact h.gone k hk hstill

section
variable {front back : List Bytes} {key : Bytes} (hup : visited max start db = front ++ key :: back)
include hup

theorem front_subset : front ⊆ visited max start db := by
  rw [hup]
  exact List.subset_append_left _ _

theorem key_mem : key ∈ visited max start db := by
  rw [hup]
  exact List.mem_append_right _ List.mem_cons_self

/-- The key at which a walk is full reads as an index of the range. -/
theorem copiedIndex_le : copiedIndex key ≤ max := by
  obtain ⟨⟨hkey, hstart⟩, hall⟩ := mem_visited.mp (key_mem hup)
  exact hall key hkey hstart (lt_irrefl key)

end

end
end AnarchoRedis.Raft
