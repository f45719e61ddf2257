import Mathlib.Data.Nat.Digits.Lemmas
import AnarchoRedis.Base.Bytes

/-! Numbers and truth values as text, the way the Go standard library writes and
reads them.

`formatInt` is `strconv.FormatInt` in base ten, and `big.Int.String`; `parseInt`
is `strconv.ParseInt(s, 10, 64)`, which stops at the first digit that leaves the
unsigned range or the first byte that is no digit; `setString` is
`big.Int.SetString(s, 0)`, which takes a base prefix and separators. Each reads
back what `formatInt` writes. -/
namespace AnarchoRedis.Base

/-! ### Writing -/

def digit (d : Nat) : UInt8 := UInt8.ofNat (48 + d)

/-- The digits of a number, most significant first. -/
def digitsOf (n : Nat) : List Nat := if n = 0 then [0] else (Nat.digits 10 n).reverse

def formatNat (n : Nat) : Bytes := (digitsOf n).map digit

def formatInt (i : Int) : Bytes := if i < 0 then 45 :: formatNat i.natAbs else formatNat i.natAbs

/-- `%t`. -/
def formatBool (b : Bool) : Bytes := if b then ascii "true" else ascii "false"

/-! ### Reading -/

/-- Why a text is not a number. -/
inductive NumCause where
  | invalid
  | outOfRange
  deriving DecidableEq

def digitValue (c : UInt8) : Option Nat := if 48 ≤ c ∧ c ≤ 57 then some (c.toNat - 48) else none

/-- The number `acc` followed by the digits, as long as it stays below the bound. -/
def parseDigits (bound : Nat) : Nat → Bytes → Except NumCause Nat
  | acc, [] => .ok acc
  | acc, c :: rest =>
    match digitValue c with
    | none => .error .invalid
    | some d => if bound ≤ acc * 10 + d then .error .outOfRange else parseDigits bound (acc * 10 + d) rest

/-- A leading sign, and what follows it. -/
def splitSign : Bytes → Bool × Bytes
  | [] => (false, [])
  | c :: rest => if c = 45 then (true, rest) else if c = 43 then (false, rest) else (false, c :: rest)

def parseInt (s : Bytes) : Except NumCause Int64 :=
  match splitSign s with
  | (_, []) => .error .invalid
  | (neg, t) =>
    match parseDigits (2 ^ 64) 0 t with
    | .error cause => .error cause
    | .ok n =>
      if neg then if n ≤ 2 ^ 63 then .ok (Int64.ofInt (-n)) else .error .outOfRange
      else if n < 2 ^ 63 then .ok (Int64.ofInt n) else .error .outOfRange

def parseBool (s : Bytes) : Except NumCause Bool :=
  if s ∈ ["1", "t", "T", "TRUE", "true", "True"].map ascii then .ok true
  else if s ∈ ["0", "f", "F", "FALSE", "false", "False"].map ascii then .ok false
  else .error .invalid

/-- A digit of any base up to 36. -/
def anyDigitValue (c : UInt8) : Option Nat :=
  if 48 ≤ c ∧ c ≤ 57 then some (c.toNat - 48)
  else if 97 ≤ c ∧ c ≤ 122 then some (c.toNat - 97 + 10)
  else if 65 ≤ c ∧ c ≤ 90 then some (c.toNat - 65 + 10)
  else none

/-- Where a scan stands: whether the last byte was a digit or prefix, or a
separator; whether a separator was out of place; digits counted; their value. -/
structure Scan where
  afterDigit : Bool
  afterSeparator : Bool
  invalidSeparator : Bool
  count : Nat
  value : Nat

/-- Digits and separators up to the first byte that is neither. -/
def scanDigits (base : Nat) : Scan → Bytes → Scan × Bytes
  | s, [] => (s, [])
  | s, c :: rest =>
    if c = 95 then
      scanDigits base
        {s with invalidSeparator := s.invalidSeparator || !s.afterDigit, afterDigit := false, afterSeparator := true}
        rest
    else
      match anyDigitValue c with
      | none => (s, c :: rest)
      | some d =>
        if base ≤ d then (s, c :: rest)
        else scanDigits base ⟨true, false, s.invalidSeparator, s.count + 1, s.value * base + d⟩ rest

/-- The number a scan has read, if the scan is well formed. Only the octal prefix
`0` may stand for a number of its own. -/
def Scan.result (octal : Bool) (r : Scan × Bytes) : Option (Nat × Bytes) :=
  if r.1.invalidSeparator || r.1.afterSeparator then none
  else if r.1.count = 0 then if octal then some (0, r.2) else none
  else some (r.1.value, r.2)

/-- An unsigned number with an optional base prefix. -/
def scanNat : Bytes → Option (Nat × Bytes)
  | [] => Scan.result false (scanDigits 10 ⟨false, false, false, 0, 0⟩ [])
  | c :: rest =>
    if c = 48 then
      match rest with
      | [] => some (0, [])
      | p :: rest =>
        let start : Scan := ⟨true, false, false, 0, 0⟩
        if p = 98 ∨ p = 66 then Scan.result false (scanDigits 2 start rest)
        else if p = 111 ∨ p = 79 then Scan.result false (scanDigits 8 start rest)
        else if p = 120 ∨ p = 88 then Scan.result false (scanDigits 16 start rest)
        else Scan.result true (scanDigits 8 start (p :: rest))
    else Scan.result false (scanDigits 10 ⟨false, false, false, 0, 0⟩ (c :: rest))

def setString (s : Bytes) : Option Int :=
  match scanNat (splitSign s).2 with
  | some (n, []) => some (if (splitSign s).1 then -n else n)
  | _ => none

/-! ### The digits of a number -/

theorem digitsOf_lt {n d : Nat} (h : d ∈ digitsOf n) : d < 10 := by
  unfold digitsOf at h
  split at h
  · rw [List.mem_singleton] at h
    omega
  · exact Nat.digits_lt_base (by decide) (List.mem_reverse.mp h)

theorem digitsOf_ne_nil (n : Nat) : digitsOf n ≠ [] := by
  unfold digitsOf
  split
  · exact List.cons_ne_nil 0 []
  · rename_i hn
    simpa [Nat.digits_eq_nil_iff_eq_zero] using hn

/-- The digits give the number back. -/
theorem foldl_digitsOf (n : Nat) : (digitsOf n).foldl (fun acc d => acc * 10 + d) 0 = n := by
  unfold digitsOf
  split
  · simp [*]
  · rw [List.foldl_reverse]
    calc (Nat.digits 10 n).foldr (fun d acc => acc * 10 + d) 0
      _ = (Nat.digits 10 n).foldr (fun d acc => d + 10 * acc) 0 := by
          congr 1
          funext d acc
          omega
      _ = n := by simpa [Nat.ofDigits_digits] using (Nat.ofDigits_eq_foldr (10 : Nat) (Nat.digits 10 n)).symm

/-- Only zero starts with the digit zero. -/
theorem head_digitsOf {n d : Nat} {ds : List Nat} (hn : n ≠ 0) (h : digitsOf n = d :: ds) : d ≠ 0 := by
  rw [digitsOf, if_neg hn] at h
  have hlast : (Nat.digits 10 n).getLast (Nat.digits_ne_nil_iff_ne_zero.mpr hn) = d := by
    rw [List.getLast_eq_head_reverse]
    simp only [h, List.head_cons]
  rw [← hlast]
  exact Nat.getLast_digit_ne_zero 10 hn

/-- What reading a digit comes down to, once it is a number below ten. -/
theorem digit_cases {P : Nat → Prop} (h : ∀ d : Fin 10, P d) {d : Nat} (hd : d < 10) : P d := h ⟨d, hd⟩

theorem digitValue_digit {d : Nat} (h : d < 10) : digitValue (digit d) = some d :=
  digit_cases (P := fun d => digitValue (digit d) = some d) (by decide) h

theorem anyDigitValue_digit {d : Nat} (h : d < 10) : anyDigitValue (digit d) = some d :=
  digit_cases (P := fun d => anyDigitValue (digit d) = some d) (by decide) h

/-- Digits are no sign and no separator. -/
theorem digit_plain {d : Nat} (h : d < 10) : digit d ≠ 45 ∧ digit d ≠ 43 ∧ digit d ≠ 95 :=
  digit_cases (P := fun d => digit d ≠ 45 ∧ digit d ≠ 43 ∧ digit d ≠ 95) (by decide) h

theorem digit_ne_zero {d : Nat} (h : d < 10) (h0 : d ≠ 0) : digit d ≠ 48 :=
  digit_cases (P := fun d => d ≠ 0 → digit d ≠ 48) (by decide) h h0

/-! ### What is written holds no terminator -/

theorem formatNat_ne_nil (n : Nat) : formatNat n ≠ [] := by
  simpa [formatNat] using digitsOf_ne_nil n

theorem formatNat_ge {n : Nat} {b : UInt8} (h : b ∈ formatNat n) : 48 ≤ b := by
  obtain ⟨d, hd, rfl⟩ := List.mem_map.mp h
  exact digit_cases (P := fun d => 48 ≤ digit d) (by decide) (digitsOf_lt hd)

/-- Nothing below the sign is written. -/
theorem formatInt_ge {i : Int} {b : UInt8} (h : b ∈ formatInt i) : 45 ≤ b := by
  unfold formatInt at h
  split at h
  · rcases List.mem_cons.mp h with rfl | h
    · exact UInt8.le_refl 45
    · exact UInt8.le_trans (by decide) (formatNat_ge h)
  · exact UInt8.le_trans (by decide) (formatNat_ge h)

theorem formatInt_ne_nil (i : Int) : formatInt i ≠ [] := by
  unfold formatInt
  split
  · exact List.cons_ne_nil _ _
  · exact formatNat_ne_nil _

theorem formatInt_noEol (i : Int) : NoEol (formatInt i) :=
  noEol_of_not_mem fun h => absurd (formatInt_ge h) (by decide)

/-! ### Reading back what is written -/

theorem splitSign_formatNat (n : Nat) : splitSign (formatNat n) = (false, formatNat n) := by
  unfold formatNat
  cases h : digitsOf n with
  | nil => exact absurd h (digitsOf_ne_nil n)
  | cons d ds =>
    have hd : d < 10 := digitsOf_lt (by rw [h]; exact List.mem_cons_self ..)
    rw [List.map_cons, splitSign, if_neg (digit_plain hd).1, if_neg (digit_plain hd).2.1]

theorem splitSign_formatInt (i : Int) : splitSign (formatInt i) = (decide (i < 0), formatNat i.natAbs) := by
  unfold formatInt
  split
  · rename_i h
    simp [splitSign, h]
  · rename_i h
    rw [splitSign_formatNat, decide_eq_false h]

theorem le_foldl_digits (ds : List Nat) (acc : Nat) : acc ≤ ds.foldl (fun acc d => acc * 10 + d) acc := by
  induction ds generalizing acc with
  | nil => exact le_rfl
  | cons d ds ih =>
    rw [List.foldl_cons]
    have := ih (acc * 10 + d)
    omega

theorem parseDigits_digits (bound : Nat) (ds : List Nat) (acc : Nat) (hd : ∀ d ∈ ds, d < 10)
    (hb : ds.foldl (fun acc d => acc * 10 + d) acc < bound) :
    parseDigits bound acc (ds.map digit) = .ok (ds.foldl (fun acc d => acc * 10 + d) acc) := by
  induction ds generalizing acc with
  | nil => rfl
  | cons d ds ih =>
    rw [List.foldl_cons] at hb ⊢
    have hle := le_foldl_digits ds (acc * 10 + d)
    rw [List.map_cons, parseDigits, digitValue_digit (hd d (List.mem_cons_self ..))]
    simp only [Nat.not_le.mpr (Nat.lt_of_le_of_lt hle hb), if_false]
    exact ih _ (fun x hx => hd x (List.mem_cons_of_mem d hx)) hb

theorem parseDigits_formatNat {bound n : Nat} (h : n < bound) : parseDigits bound 0 (formatNat n) = .ok n := by
  have := parseDigits_digits bound (digitsOf n) 0 (fun d => digitsOf_lt) (by rwa [foldl_digitsOf])
  rwa [foldl_digitsOf] at this

/-- **`ParseInt` reads what `FormatInt` writes.** -/
theorem parseInt_formatInt (i : Int64) : parseInt (formatInt i.toInt) = .ok i := by
  have hlo := i.le_toInt
  have hhi := i.toInt_lt
  unfold parseInt
  rw [splitSign_formatInt]
  cases hf : formatNat i.toInt.natAbs with
  | nil => exact absurd hf (formatNat_ne_nil _)
  | cons c t =>
    simp only []
    rw [← hf, parseDigits_formatNat (by omega)]
    by_cases hneg : i.toInt < 0
    · have habs : -(i.toInt.natAbs : Int) = i.toInt := by omega
      have hle : i.toInt.natAbs ≤ 2 ^ 63 := by omega
      simp only [hneg, decide_true, if_true, hle, habs, Int64.ofInt_toInt]
    · have habs : (i.toInt.natAbs : Int) = i.toInt := by omega
      have hlt : i.toInt.natAbs < 2 ^ 63 := by omega
      simp only [hneg, decide_false, Bool.false_eq_true, if_false, hlt, if_true, habs, Int64.ofInt_toInt]

theorem parseBool_formatBool (b : Bool) : parseBool (formatBool b) = .ok b := by
  cases b <;> decide

theorem scanDigits_digits (ds : List Nat) (s : Scan) (hd : ∀ d ∈ ds, d < 10) (hs : s.afterSeparator = false) :
    ∃ after, scanDigits 10 s (ds.map digit) =
      (⟨after, false, s.invalidSeparator, s.count + ds.length,
        ds.foldl (fun acc d => acc * 10 + d) s.value⟩, []) := by
  induction ds generalizing s with
  | nil =>
    refine ⟨s.afterDigit, ?_⟩
    rw [List.map_nil, scanDigits, List.length_nil, List.foldl_nil, Nat.add_zero, ← hs]
  | cons d ds ih =>
    have hlt := hd d (List.mem_cons_self ..)
    obtain ⟨after, h⟩ := ih ⟨true, false, s.invalidSeparator, s.count + 1, s.value * 10 + d⟩
      (fun x hx => hd x (List.mem_cons_of_mem d hx)) rfl
    refine ⟨after, ?_⟩
    rw [List.map_cons, scanDigits, if_neg (digit_plain hlt).2.2, anyDigitValue_digit hlt]
    simp only [Nat.not_le.mpr hlt, if_false]
    rw [h, List.length_cons, List.foldl_cons, Nat.add_assoc, Nat.add_comm 1]

theorem scanNat_formatNat (n : Nat) : scanNat (formatNat n) = some (n, []) := by
  by_cases hn : n = 0
  · subst hn
    decide
  · unfold formatNat
    cases h : digitsOf n with
    | nil => exact absurd h (digitsOf_ne_nil n)
    | cons d ds =>
      have hall : ∀ x ∈ d :: ds, x < 10 := fun x hx => digitsOf_lt (by rwa [h])
      have hd := hall d (List.mem_cons_self ..)
      obtain ⟨after, hscan⟩ := scanDigits_digits (d :: ds) ⟨false, false, false, 0, 0⟩ hall rfl
      rw [← h, foldl_digitsOf, h, List.map_cons] at hscan
      simp only [List.map_cons, scanNat.eq_def, if_neg (digit_ne_zero hd (head_digitsOf hn h)), hscan]
      simp [Scan.result]

/-- **`SetString` reads what `String` writes**, whatever the size. -/
theorem setString_formatInt (i : Int) : setString (formatInt i) = some i := by
  unfold setString
  rw [splitSign_formatInt, scanNat_formatNat]
  by_cases hneg : i < 0
  · simp only [hneg, decide_true, if_true, Option.some.injEq]
    omega
  · simp only [hneg, decide_false, Bool.false_eq_true, if_false, Option.some.injEq]
    omega

theorem formatInt_injective : Function.Injective formatInt := by
  intro i j h
  have := setString_formatInt i
  rw [h, setString_formatInt] at this
  exact (Option.some.inj this).symm

end AnarchoRedis.Base
