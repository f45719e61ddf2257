import Mathlib.Data.List.Lex
import Mathlib.Tactic.Ring
import AnarchoRedis.Base.Bytes

/-! Byte order, and numbers as bytes with the most significant first.

Byte strings are ordered as badger and most stores order them: at the first
byte in which they differ, a string before its extensions. Strings of one length
are ordered as the numbers they write (`lt_iff_beNat_lt`). -/
namespace AnarchoRedis.Base

namespace ByteOrder

/-- Bytes as numbers, where `ByteOrder` is open. -/
scoped instance byteLinearOrder : LinearOrder UInt8 where
  le_refl := UInt8.le_refl
  le_trans _ _ _ := UInt8.le_trans
  lt_iff_le_not_ge a b := by
    rw [UInt8.not_le]
    exact ⟨fun h => ⟨UInt8.le_of_lt h, h⟩, fun h => h.2⟩
  le_antisymm _ _ := UInt8.le_antisymm
  le_total := UInt8.le_total
  toDecidableLE := inferInstance
  toDecidableEq := inferInstance
  toDecidableLT := inferInstance

end ByteOrder

/-- The number that a string writes. -/
def beNat : Bytes → Nat
  | [] => 0
  | b :: rest => b.toNat * 256 ^ rest.length + beNat rest

/-- The last `n` digits of a number, in base 256. -/
def beBytes : Nat → Nat → Bytes
  | 0, _ => []
  | n + 1, u => UInt8.ofNat (u / 256 ^ n) :: beBytes n u

@[simp] theorem beBytes_length (n u : Nat) : (beBytes n u).length = n := by
  induction n with
  | zero => rfl
  | succ n ih => rw [beBytes, List.length_cons, ih]

theorem beNat_lt (s : Bytes) : beNat s < 256 ^ s.length := by
  induction s with
  | nil => decide
  | cons b rest ih =>
    have hb : b.toNat < 256 := b.toNat_lt
    calc
      beNat (b :: rest) < b.toNat * 256 ^ rest.length + 256 ^ rest.length := Nat.add_lt_add_left ih _
      _ = (b.toNat + 1) * 256 ^ rest.length := by ring
      _ ≤ 256 * 256 ^ rest.length := Nat.mul_le_mul_right _ hb
      _ = 256 ^ (b :: rest).length := by rw [List.length_cons]; ring

theorem beNat_beBytes (n u : Nat) : beNat (beBytes n u) = u % 256 ^ n := by
  induction n with
  | zero => rw [beBytes, beNat, Nat.pow_zero, Nat.mod_one]
  | succ n ih =>
    have hsplit : u % 256 ^ (n + 1) = u % 256 ^ n + 256 ^ n * (u / 256 ^ n % 256) := by
      rw [Nat.pow_succ, Nat.mod_mul]
    have hdigit : (UInt8.ofNat (u / 256 ^ n)).toNat = u / 256 ^ n % 256 := UInt8.toNat_ofNat'
    rw [beBytes, beNat, beBytes_length, ih, hdigit, hsplit, Nat.add_comm, Nat.mul_comm]

/-- Strings of one length are ordered as their numbers. -/
theorem lt_iff_beNat_lt : ∀ {s t : Bytes}, s.length = t.length → (s < t ↔ beNat s < beNat t)
  | [], [], _ => by simp
  | [], _ :: _, h => by cases h
  | _ :: _, [], h => by cases h
  | a :: s, b :: t, h => by
    have hlen : s.length = t.length := Nat.succ.inj h
    have hs := beNat_lt s
    have ht := beNat_lt t
    rw [List.cons_lt_cons_iff, lt_iff_beNat_lt hlen, beNat, beNat, hlen]
    rw [hlen] at hs
    rcases Nat.lt_trichotomy a.toNat b.toNat with hab | hab | hab
    · have hstep : (a.toNat + 1) * 256 ^ t.length ≤ b.toNat * 256 ^ t.length := Nat.mul_le_mul_right _ hab
      rw [Nat.add_mul, Nat.one_mul] at hstep
      exact iff_of_true (.inl (UInt8.lt_iff_toNat_lt.mpr hab)) (by omega)
    · obtain rfl : a = b := UInt8.toNat_inj.mp hab
      simp
    · have hstep : (b.toNat + 1) * 256 ^ t.length ≤ a.toNat * 256 ^ t.length := Nat.mul_le_mul_right _ hab
      rw [Nat.add_mul, Nat.one_mul] at hstep
      refine iff_of_false ?_ (by omega)
      rintro (hlt | ⟨rfl, _⟩)
      · exact absurd (UInt8.lt_iff_toNat_lt.mp hlt) (by omega)
      · exact absurd hab (Nat.lt_irrefl _)

/-- Up to zeros there are only zeros. -/
theorem eq_replicate_of_not_lt : ∀ {n : Nat} {m : Bytes}, ¬List.replicate n 0 < m → ∃ j ≤ n, m = List.replicate j 0
  | _, [], _ => ⟨0, Nat.zero_le _, rfl⟩
  | 0, _ :: _, h => absurd (List.nil_lt_cons _ _) h
  | n + 1, b :: m, h => by
    rw [List.replicate_succ, List.cons_lt_cons_iff, not_or] at h
    have hb : b = 0 := UInt8.le_antisymm (UInt8.not_lt.mp h.1) UInt8.zero_le
    obtain ⟨j, hj, rfl⟩ := eq_replicate_of_not_lt fun hlt => h.2 ⟨hb.symm, hlt⟩
    exact ⟨j + 1, by omega, by rw [hb, List.replicate_succ]⟩

/-- A string between another and that with zeros after it has zeros after it. -/
theorem eq_append_replicate : ∀ {l m : Bytes} {n : Nat}, l < m → ¬l ++ List.replicate n 0 < m →
    ∃ j ≤ n, m = l ++ List.replicate j 0
  | [], _, _, _, h => eq_replicate_of_not_lt h
  | _ :: _, [], _, hlt, _ => absurd hlt (List.not_lt_nil _)
  | a :: l, b :: m, n, hlt, h => by
    rw [List.cons_append, List.cons_lt_cons_iff, not_or] at h
    rcases List.cons_lt_cons_iff.mp hlt with hab | ⟨rfl, hlm⟩
    · exact absurd hab h.1
    · obtain ⟨j, hj, rfl⟩ := eq_append_replicate hlm fun hlt => h.2 ⟨rfl, hlt⟩
      exact ⟨j, hj, rfl⟩

/-- Nothing lies between a string and that with a zero after it. -/
theorem lt_append_zero_iff : ∀ {l m : Bytes}, m < l ++ [0] ↔ ¬l < m
  | [], [] => by simp
  | [], b :: m => by simp [List.cons_lt_cons_iff]
  | a :: l, [] => by simp
  | a :: l, b :: m => by
    rw [List.cons_append, List.cons_lt_cons_iff, List.cons_lt_cons_iff, lt_append_zero_iff, not_or, not_and,
      UInt8.not_lt, UInt8.le_iff_lt_or_eq]
    by_cases hab : a = b
    · subst hab
      simp
    · simp [hab, Ne.symm hab]

end AnarchoRedis.Base
