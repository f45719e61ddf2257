import Mathlib.Order.Lattice
import Mathlib.Order.Bounds.Defs
import Mathlib.Data.List.Basic

/-! Finite maps over a linear order, with their keys in order.

A map is a list of entries with strictly increasing keys. It is read by `get`,
changed by `insert` and `erase`, and walked upwards from a key (`keysFrom`). A
walk that stops at the first key that fails a test has visited exactly the keys
below which none fails it (`mem_takeWhile_iff`). The keys on either side of a given
one are found by `seek` and `seekBack`. -/
namespace AnarchoRedis.Base

section
variable {α : Type} [LinearOrder α]

/-- The start of a sorted list that a test passes. -/
theorem mem_takeWhile_iff {l : List α} (hl : l.Pairwise (· < ·)) {p : α → Bool} {x : α} :
    x ∈ l.takeWhile p ↔ x ∈ l ∧ ∀ y ∈ l, y ≤ x → p y = true := by
  induction l with
  | nil => simp
  | cons a l ih =>
    rw [List.pairwise_cons] at hl
    obtain ⟨ha, hl⟩ := hl
    rw [List.takeWhile_cons]
    cases hp : p a with
    | false =>
      -- Nothing is visited, and `a` is below everything.
      simp only [Bool.false_eq_true, if_false, List.not_mem_nil, false_iff, not_and]
      intro hx hall
      have hax : a ≤ x := by
        rcases List.mem_cons.mp hx with rfl | hx
        · exact le_rfl
        · exact (ha x hx).le
      rw [hall a List.mem_cons_self hax] at hp
      cases hp
    | true =>
      rw [if_pos rfl, List.mem_cons, List.mem_cons, ih hl, List.forall_mem_cons]
      constructor
      · rintro (rfl | ⟨hx, hall⟩)
        · exact ⟨.inl rfl, fun _ => hp, fun y hy hyx => absurd (ha y hy) (not_lt.mpr hyx)⟩
        · exact ⟨.inr hx, fun _ => hp, hall⟩
      · rintro ⟨rfl | hx, _, hall⟩
        · exact .inl rfl
        · exact .inr ⟨hx, hall⟩

end

structure SortedMap (α β : Type) [LinearOrder α] where
  entries : List (α × β)
  sorted : entries.Pairwise fun a b => a.1 < b.1

namespace SortedMap

section
variable {α β : Type} [LinearOrder α]

def empty : SortedMap α β := ⟨[], .nil⟩

def get (m : SortedMap α β) (k : α) : Option β := m.entries.lookup k

def insertEntry (k : α) (v : β) : List (α × β) → List (α × β)
  | [] => [(k, v)]
  | e :: rest =>
    if k < e.1 then (k, v) :: e :: rest
    else if k = e.1 then (k, v) :: rest
    else e :: insertEntry k v rest

theorem mem_insertEntry {k : α} {v : β} {es : List (α × β)} {e : α × β} (h : e ∈ insertEntry k v es) :
    e = (k, v) ∨ e ∈ es := by
  induction es with
  | nil => exact .inl (List.mem_singleton.mp h)
  | cons d rest ih =>
    rw [insertEntry] at h
    split at h
    · exact List.mem_cons.mp h
    · split at h
      · exact (List.mem_cons.mp h).imp_right (List.mem_cons_of_mem d)
      · rcases List.mem_cons.mp h with rfl | h
        · exact .inr List.mem_cons_self
        · exact (ih h).imp_right (List.mem_cons_of_mem d)

theorem sorted_insertEntry (k : α) (v : β) {es : List (α × β)} (h : es.Pairwise fun a b => a.1 < b.1) :
    (insertEntry k v es).Pairwise fun a b => a.1 < b.1 := by
  induction es with
  | nil => exact List.pairwise_singleton ..
  | cons d rest ih =>
    obtain ⟨hd, hrest⟩ := List.pairwise_cons.mp h
    rw [insertEntry]
    split
    · rename_i hlt
      refine List.pairwise_cons.mpr ⟨fun e he => ?_, h⟩
      rcases List.mem_cons.mp he with rfl | he
      · exact hlt
      · exact hlt.trans (hd e he)
    · split
      · rename_i heq
        exact List.pairwise_cons.mpr ⟨fun e he => heq ▸ hd e he, hrest⟩
      · rename_i hnlt hne
        refine List.pairwise_cons.mpr ⟨fun e he => ?_, ih hrest⟩
        rcases mem_insertEntry he with rfl | he
        · exact lt_of_le_of_ne (not_lt.mp hnlt) (Ne.symm hne)
        · exact hd e he

def insert (m : SortedMap α β) (k : α) (v : β) : SortedMap α β :=
  ⟨insertEntry k v m.entries, sorted_insertEntry k v m.sorted⟩

def erase (m : SortedMap α β) (k : α) : SortedMap α β :=
  ⟨m.entries.filter (·.1 ≠ k), m.sorted.sublist List.filter_sublist⟩

def keys (m : SortedMap α β) : List α := m.entries.map Prod.fst

/-- The keys from `k` upwards, in order. -/
def keysFrom (m : SortedMap α β) (k : α) : List α := m.keys.filter (k ≤ ·)

/-- Where an iterator lands that goes upwards from `k`. -/
def seek (m : SortedMap α β) (k : α) : Option α := (m.keysFrom k).head?

/-- Where an iterator lands that goes downwards from `k`. -/
def seekBack (m : SortedMap α β) (k : α) : Option α := (m.keys.filter (· ≤ k)).getLast?

/-! ### Reading what was written -/

theorem lookup_cons (e : α × β) (es : List (α × β)) (x : α) :
    (e :: es).lookup x = if x = e.1 then some e.2 else es.lookup x := by
  rw [List.lookup_cons]
  by_cases hx : x = e.1
  · rw [if_pos hx, beq_iff_eq.mpr hx]
  · rw [if_neg hx, beq_eq_false_iff_ne.mpr hx]

theorem lookup_insertEntry (k : α) (v : β) (es : List (α × β)) (x : α) :
    (insertEntry k v es).lookup x = if x = k then some v else es.lookup x := by
  induction es with
  | nil => rw [insertEntry, lookup_cons]
  | cons d rest ih =>
    rw [insertEntry]
    split
    · rw [lookup_cons]
    · split
      · rename_i heq
        rw [lookup_cons, lookup_cons, heq]
        split <;> rfl
      · rename_i hne
        rw [lookup_cons, ih, lookup_cons]
        by_cases hx : x = k
        · rw [if_pos hx, if_pos hx, if_neg (hx ▸ hne)]
        · rw [if_neg hx, if_neg hx]

theorem get_insert (m : SortedMap α β) (k : α) (v : β) (x : α) :
    (m.insert k v).get x = if x = k then some v else m.get x :=
  lookup_insertEntry k v m.entries x

theorem lookup_filter (k : α) (es : List (α × β)) (x : α) :
    (es.filter (·.1 ≠ k)).lookup x = if x = k then none else es.lookup x := by
  induction es with
  | nil => simp
  | cons d rest ih =>
    by_cases hd : d.1 = k
    · rw [List.filter_cons_of_neg (by simp [hd]), ih, lookup_cons, hd]
      split <;> rfl
    · rw [List.filter_cons_of_pos (by simp [hd]), lookup_cons, lookup_cons, ih]
      by_cases hx : x = d.1
      · rw [if_pos hx, if_pos hx, if_neg (hx ▸ hd)]
      · rw [if_neg hx, if_neg hx]

theorem get_erase (m : SortedMap α β) (k x : α) : (m.erase k).get x = if x = k then none else m.get x :=
  lookup_filter k m.entries x

/-! ### The keys -/

theorem mem_keys {m : SortedMap α β} {k : α} : k ∈ m.keys ↔ (m.get k).isSome = true := by
  unfold keys get
  induction m.entries with
  | nil => simp
  | cons d rest ih =>
    rw [List.map_cons, List.mem_cons, ih, lookup_cons]
    by_cases hk : k = d.1 <;> simp [hk]

theorem keys_sorted (m : SortedMap α β) : m.keys.Pairwise (· < ·) := List.pairwise_map.mpr m.sorted

theorem keysFrom_sorted (m : SortedMap α β) (k : α) : (m.keysFrom k).Pairwise (· < ·) :=
  m.keys_sorted.sublist List.filter_sublist

theorem mem_keysFrom {m : SortedMap α β} {k x : α} : x ∈ m.keysFrom k ↔ (m.get x).isSome = true ∧ k ≤ x := by
  rw [keysFrom, List.mem_filter, mem_keys, decide_eq_true_eq]

theorem seek_isLeast {m : SortedMap α β} {k x : α} (h : m.seek k = some x) :
    IsLeast {y | (m.get y).isSome = true ∧ k ≤ y} x := by
  obtain ⟨rest, hkeys⟩ := List.head?_eq_some_iff.mp h
  have hsorted := m.keysFrom_sorted k
  rw [hkeys] at hsorted
  refine ⟨mem_keysFrom.mp (hkeys ▸ List.mem_cons_self), fun y hy => ?_⟩
  have hmem : y ∈ m.keysFrom k := mem_keysFrom.mpr hy
  rw [hkeys] at hmem
  rcases List.mem_cons.mp hmem with rfl | hmem
  · exact le_rfl
  · exact ((List.pairwise_cons.mp hsorted).1 y hmem).le

theorem seek_none {m : SortedMap α β} {k : α} (h : m.seek k = none) {y : α} (hy : (m.get y).isSome = true) : ¬k ≤ y := by
  intro hle
  have hmem : y ∈ m.keysFrom k := mem_keysFrom.mpr ⟨hy, hle⟩
  rw [List.head?_eq_none_iff.mp h] at hmem
  exact List.not_mem_nil hmem

theorem mem_keysTo {m : SortedMap α β} {k x : α} :
    x ∈ m.keys.filter (· ≤ k) ↔ (m.get x).isSome = true ∧ x ≤ k := by
  rw [List.mem_filter, mem_keys, decide_eq_true_eq]

theorem seekBack_isGreatest {m : SortedMap α β} {k x : α} (h : m.seekBack k = some x) :
    IsGreatest {y | (m.get y).isSome = true ∧ y ≤ k} x := by
  obtain ⟨front, hkeys⟩ := List.getLast?_eq_some_iff.mp h
  have hsorted : (m.keys.filter (· ≤ k)).Pairwise (· < ·) := m.keys_sorted.sublist List.filter_sublist
  rw [hkeys] at hsorted
  refine ⟨mem_keysTo.mp (hkeys ▸ List.mem_append_right _ List.mem_cons_self), fun y hy => ?_⟩
  have hmem : y ∈ m.keys.filter (· ≤ k) := mem_keysTo.mpr hy
  rw [hkeys] at hmem
  rcases List.mem_append.mp hmem with hmem | hmem
  · exact ((List.pairwise_append.mp hsorted).2.2 y hmem x List.mem_cons_self).le
  · exact (List.mem_singleton.mp hmem).le

theorem seekBack_none {m : SortedMap α β} {k : α} (h : m.seekBack k = none) {y : α} (hy : (m.get y).isSome = true) :
    ¬y ≤ k := by
  intro hle
  have hmem : y ∈ m.keys.filter (· ≤ k) := mem_keysTo.mpr ⟨hy, hle⟩
  rw [List.getLast?_eq_none_iff.mp h] at hmem
  exact List.not_mem_nil hmem

end

end SortedMap

end AnarchoRedis.Base
