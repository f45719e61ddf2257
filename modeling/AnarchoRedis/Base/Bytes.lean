import Mathlib.Data.List.Basic
import Mathlib.Tactic.Common

/-! Byte strings and the lines a two-byte terminator cuts from them.

A string here is the bytes it is made of. A *line* is a string in which the
terminator does not occur; put before a terminator, a line is found again
whatever follows (`line_unique`), also when it ends in the terminator's first
byte. -/
namespace AnarchoRedis.Base

abbrev Bytes := List UInt8

/-- An ASCII literal. -/
def ascii (s : String) : Bytes := s.toList.map fun c => UInt8.ofNat c.toNat

/-- Carriage return, line feed. -/
def eol : Bytes := [13, 10]

@[simp] theorem eol_length : eol.length = 2 := rfl

/-- The terminator occurs nowhere in the string. -/
def NoEol : Bytes → Prop
  | [] => True
  | [_] => True
  | a :: b :: rest => ¬ (a = 13 ∧ b = 10) ∧ NoEol (b :: rest)

instance decidableNoEol : DecidablePred NoEol
  | [] => .isTrue trivial
  | [_] => .isTrue trivial
  | a :: b :: rest =>
    let _ := decidableNoEol (b :: rest)
    inferInstanceAs (Decidable (¬ (a = 13 ∧ b = 10) ∧ NoEol (b :: rest)))

theorem NoEol.tail {a : UInt8} {s : Bytes} (h : NoEol (a :: s)) : NoEol s := by
  cases s with
  | nil => trivial
  | cons b rest => exact h.2

theorem noEol_tail {s : Bytes} (h : NoEol s) : NoEol s.tail := by
  cases s with
  | nil => trivial
  | cons a s => exact h.tail

theorem NoEol.left {s t : Bytes} (h : NoEol (s ++ t)) : NoEol s := by
  induction s with
  | nil => trivial
  | cons a s ih =>
    cases s with
    | nil => trivial
    | cons b s => exact ⟨h.1, ih h.2⟩

/-- A line stays one with a byte after it that ends no terminator. -/
theorem NoEol.concat {s : Bytes} {c : UInt8} (h : NoEol s) (hc : ∀ u, s ++ [c] ≠ u ++ eol) : NoEol (s ++ [c]) := by
  induction s with
  | nil => trivial
  | cons a s ih =>
    have hrest : NoEol (s ++ [c]) := ih h.tail fun u heq => hc (a :: u) (congrArg (a :: ·) heq)
    cases s with
    | nil => exact ⟨fun ⟨ha, hb⟩ => hc [] (by rw [ha, hb]; rfl), trivial⟩
    | cons b s => exact ⟨h.1, hrest⟩

/-- A string without the terminator's first byte is a line. -/
theorem noEol_of_not_mem {s : Bytes} (h : 13 ∉ s) : NoEol s := by
  induction s with
  | nil => trivial
  | cons a s ih =>
    cases s with
    | nil => trivial
    | cons b rest =>
      refine ⟨fun hab => h ?_, ih fun hm => h (List.mem_cons_of_mem a hm)⟩
      rw [← hab.1]
      exact List.mem_cons_self ..

/-- Before a terminator, the first byte of a non-empty line cannot open one. -/
theorem NoEol.head_ne {a : UInt8} {s r t : Bytes} (h : NoEol (a :: s)) :
    a :: s ++ (eol ++ r) ≠ eol ++ t := by
  intro he
  simp only [eol, List.cons_append, List.nil_append, List.cons.injEq] at he
  obtain ⟨ha, he⟩ := he
  cases s with
  | nil =>
    simp only [List.nil_append, List.cons.injEq] at he
    exact absurd he.1 (by decide)
  | cons b rest =>
    simp only [List.cons_append, List.cons.injEq] at he
    exact h.1 ⟨ha, he.1⟩

/-- **A line and what follows its terminator are determined by the bytes.** -/
theorem line_unique {a b r t : Bytes} (ha : NoEol a) (hb : NoEol b)
    (h : a ++ (eol ++ r) = b ++ (eol ++ t)) : a = b ∧ r = t := by
  induction a generalizing b with
  | nil =>
    cases b with
    | nil => exact ⟨rfl, List.append_cancel_left h⟩
    | cons y b => exact absurd h.symm hb.head_ne
  | cons x a ih =>
    cases b with
    | nil => exact absurd h ha.head_ne
    | cons y b =>
      obtain ⟨hxy, hrest⟩ := List.cons.inj h
      obtain ⟨hab, hrt⟩ := ih ha.tail hb.tail hrest
      exact ⟨by rw [hxy, hab], hrt⟩

/-- A string that is a line. -/
structure Line where
  bytes : Bytes
  noEol : NoEol bytes

theorem Line.ext_bytes {a b : Line} (h : a.bytes = b.bytes) : a = b := by
  cases a
  cases b
  cases h
  rfl

end AnarchoRedis.Base
