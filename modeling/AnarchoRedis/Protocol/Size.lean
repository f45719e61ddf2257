import AnarchoRedis.Protocol.Relay

/-! The size a message is said to have.

`Iterate` adds up `TotalMessageSize` from the header line and the run length. A `Frame`
is a message on the wire, of any kind and nesting. The size is that of the frame for a
line of a simple kind that is not empty and for an empty collection, and for no other
frame (`sized_iff`): the terminator of a body is not counted, a collection is counted by
its elements, and an empty line is not read as one. -/
namespace AnarchoRedis.Protocol
open Base

/-! ### Frames -/

/-- A line of a simple kind, which the reader of that kind accepts. -/
structure SimpleLine (fl : Floats) where
  kind : Kind
  line : Line
  simple : kind.category = .simple
  accepted : (simpleMessage fl kind line.bytes).isOk = true
  null : kind = .null → line.bytes = []

/-- A message on the wire. -/
inductive Frame (fl : Floats) where
  | simple (s : SimpleLine fl)
  | bulk (k : BulkKind) (body : Bytes)
  | verbatim (encoding : Encoding) (body : Bytes)
  | seq (k : SeqKind) (xs : List (Frame fl))
  | assoc (k : AssocKind) (kvs : List (Frame fl × Frame fl))

variable {fl : Floats}

def Frame.kind : Frame fl → Kind
  | .simple s => s.kind
  | .bulk k _ => k.kind
  | .verbatim .. => .verbatimString
  | .seq k _ => k.kind
  | .assoc k _ => k.kind

mutual

/-- The bytes of a frame after its kind. -/
def Frame.payload : Frame fl → Bytes
  | .simple s => s.line.bytes ++ eol
  | .bulk _ body => header body.length ++ (body ++ eol)
  | .verbatim encoding body => header body.length ++ (encoding.bytes ++ eol ++ (body ++ eol))
  | .seq _ xs => header xs.length ++ Frame.children xs
  | .assoc _ kvs => header kvs.length ++ Frame.pairs kvs

def Frame.children : List (Frame fl) → Bytes
  | [] => []
  | x :: xs => x.kind.byte :: x.payload ++ Frame.children xs

def Frame.pairs : List (Frame fl × Frame fl) → Bytes
  | [] => []
  | (k, v) :: kvs => k.kind.byte :: k.payload ++ (v.kind.byte :: v.payload ++ Frame.pairs kvs)

end

def Frame.bytes (f : Frame fl) : Bytes := f.kind.byte :: f.payload

/-! ### Lengths -/

theorem header_length (n : Nat) : (header n).length = (formatInt n).length + 2 := by
  rw [header, List.length_append, eol_length]

theorem Frame.payload_length (f : Frame fl) : 2 ≤ f.payload.length := by
  cases f <;> rw [Frame.payload] <;> simp only [List.length_append, eol_length, header_length] <;> omega

theorem Frame.children_length (xs : List (Frame fl)) : 3 * xs.length ≤ (Frame.children xs).length := by
  induction xs with
  | nil => exact Nat.zero_le _
  | cons x xs ih =>
    have hx := x.payload_length
    rw [Frame.children]
    simp only [List.length_cons, List.length_append]
    omega

theorem Frame.pairs_length (kvs : List (Frame fl × Frame fl)) : 6 * kvs.length ≤ (Frame.pairs kvs).length := by
  induction kvs with
  | nil => exact Nat.zero_le _
  | cons kv kvs ih =>
    obtain ⟨k, v⟩ := kv
    have hk := k.payload_length
    have hv := v.payload_length
    rw [Frame.pairs]
    simp only [List.length_cons, List.length_append]
    omega

/-! ### The size that is computed -/

theorem toInt_ofNat_le (n : Nat) : (Int64.ofNat n).toInt ≤ n := by
  rw [Int64.toInt_ofNat', Int.bmod_def]
  have hmod : ((n % Int64.size : Nat) : Int) ≤ n := Int.ofNat_le.mpr (Nat.mod_le ..)
  rw [Int.natCast_emod] at hmod
  split <;> omega

theorem aggregatePass_total {k : Kind} {line : LineRead} {m : Message} {rest : Source} {n : Int64}
    (hstr : parseInt line.str = .ok n) (h : aggregatePass k line = .built m rest) :
    m.totalMessageSize = 1 + Int64.ofNat line.size + n + if k = .verbatimString then 3 else 0 := by
  unfold aggregatePass at h
  rw [hstr] at h
  split at h
  · cases h
  · dsimp only at h
    split at h
    · rename_i hk
      rw [if_pos hk]
      split at h
      · cases h
      · cases h
        rfl
      · cases h
    · rename_i hk
      rw [if_neg hk, Int64.add_zero]
      cases h
      rfl

/-- The pass on a reader that starts with the header of an aggregate. -/
theorem iteratePass_header {src : Source} {k : Kind} {n : Nat} {t : Bytes} (hp : src.Plain)
    (hb : src.bytes = k.byte :: (header n ++ t)) (hk : k.category = .aggregate) :
    ∃ rest, iteratePass fl src = aggregatePass k ⟨formatInt n, (header n).length, none, rest⟩ := by
  rw [header, List.append_assoc] at hb
  obtain ⟨r, hbytes, hplain, hpass⟩ := iteratePass_kind fl hp hb
  obtain ⟨rest, hread, _, _⟩ := unmarshal_line (readsLine_of_noEol (formatInt_noEol n) (formatInt_ne_nil n)) hplain hbytes
  refine ⟨rest, ?_⟩
  rw [hpass, kindPass, hk, hread, header_length]

theorem parseInt_header {n : Nat} (hn : n < 2 ^ 63) : parseInt (formatInt n) = .ok (Int64.ofNat n) := by
  rw [← toInt_ofNat hn, parseInt_formatInt]

/-- The size a pass computes for an aggregate: the header, the run length, and three
for a verbatim string. -/
theorem aggregate_total {src rest : Source} {k : Kind} {n : Nat} {t : Bytes} {m : Message} (hp : src.Plain)
    (hb : src.bytes = k.byte :: (header n ++ t)) (hk : k.category = .aggregate) (hn : n < 2 ^ 63)
    (h : iteratePass fl src = .built m rest) :
    m.totalMessageSize = Int64.ofNat (1 + (header n).length + n + if k = .verbatimString then 3 else 0) := by
  obtain ⟨r, hpass⟩ := iteratePass_header hp hb hk
  rw [hpass] at h
  rw [aggregatePass_total (parseInt_header hn) h]
  split <;> simp only [Int64.ofNat_add] <;> rfl

/-- One pass builds a message whose size is the number of bytes. -/
def Sized (fl : Floats) (w : Bytes) (src : Source) : Prop :=
  ∃ m rest, iteratePass fl src = .built m rest ∧ m.totalMessageSize.toInt = w.length

theorem Sized.length_lt {w : Bytes} {src : Source} (h : Sized fl w src) : w.length < 2 ^ 63 := by
  obtain ⟨m, _, _, hsize⟩ := h
  have := m.totalMessageSize.toInt_lt
  omega

theorem not_sized_aggregate {src : Source} {k : Kind} {n : Nat} {t r : Bytes} (hp : src.Plain)
    (hb : src.bytes = k.byte :: (header n ++ t) ++ r) (hk : k.category = .aggregate)
    (hlen : n + (if k = .verbatimString then 3 else 0) < t.length) :
    ¬ Sized fl (k.byte :: (header n ++ t)) src := by
  intro h
  have hlt := h.length_lt
  obtain ⟨m, rest, hpass, hsize⟩ := h
  simp only [List.length_cons, List.length_append] at hlt hsize
  rw [List.cons_append, List.append_assoc] at hb
  rw [aggregate_total hp hb hk (by omega) hpass] at hsize
  have hle := toInt_ofNat_le (1 + (header n).length + n + if k = .verbatimString then 3 else 0)
  omega

theorem sized_empty {src : Source} {k : Kind} {r : Bytes} (hp : src.Plain)
    (hb : src.bytes = k.byte :: (header 0 ++ []) ++ r) (hk : k.category = .aggregate) (hv : k ≠ .verbatimString) :
    Sized fl (k.byte :: (header 0 ++ [])) src := by
  rw [List.append_nil, List.cons_append] at hb
  obtain ⟨r', hheader⟩ := iteratePass_header hp hb hk
  have hpass : iteratePass fl src = .built (aggregateMessage k (1 + Int64.ofNat (header 0).length + 0) 0 ⟨0, 0, 0⟩) r' := by
    rw [hheader]
    simp only [aggregatePass, show parseInt (formatInt (0 : Nat)) = .ok 0 from parseInt_header (by decide), if_neg hv]
  refine ⟨_, r', hpass, ?_⟩
  show (1 + Int64.ofNat (header 0).length + 0).toInt = (header 0 ++ []).length + 1
  decide

theorem sized_simple {src : Source} {k : Kind} {line : Line} {r : Bytes} (hp : src.Plain)
    (hb : src.bytes = k.byte :: (line.bytes ++ eol) ++ r) (hk : k.category = .simple) (hne : line.bytes ≠ [])
    (hm : (simpleMessage fl k line.bytes).isOk = true) (hlt : (k.byte :: (line.bytes ++ eol)).length < 2 ^ 63) :
    Sized fl (k.byte :: (line.bytes ++ eol)) src := by
  rw [List.cons_append, List.append_assoc] at hb
  rcases hmsg : simpleMessage fl k line.bytes with err | m
  · rw [hmsg] at hm
    cases hm
  · obtain ⟨rest, hpass, _⟩ := iteratePass_simple fl hp hb hk line.noEol hne hmsg
    refine ⟨_, rest, hpass, ?_⟩
    simp only [List.length_cons, List.length_append, eol_length] at hlt ⊢
    show (Int64.ofNat 1 + Int64.ofNat (line.bytes.length + 2)).toInt = _
    rw [← Int64.ofNat_add, toInt_ofNat (by omega)]
    omega

/-- With nothing after it a line of its terminator alone is not read. -/
theorem not_sized_empty {k : Kind} (hk : k.category = .simple) :
    ¬ Sized fl (k.byte :: eol) [⟨k.byte :: eol, none⟩] := by
  rintro ⟨m, rest, hpass, _⟩
  have hb : Source.bytes [⟨k.byte :: eol, none⟩] = k.byte :: eol := by simp [Source.bytes]
  obtain ⟨r, hbytes, _, hkind⟩ := iteratePass_kind fl Source.plain_singleton hb
  rw [hkind, kindPass, hk] at hpass
  have htakes := simplePass_takes hpass
  rw [hbytes, eol_length] at htakes
  omega

/-- The frames whose size is computed right: a line that is not empty, and a
collection that is. -/
def Frame.exact : Frame fl → Bool
  | .simple s => !s.line.bytes.isEmpty
  | .bulk .. | .verbatim .. => false
  | .seq _ xs => xs.isEmpty
  | .assoc _ kvs => kvs.isEmpty

theorem BulkKind.aggregate (k : BulkKind) : k.kind.category = .aggregate ∧ k.kind ≠ .verbatimString := by
  cases k <;> decide

theorem SeqKind.aggregate (k : SeqKind) : k.kind.category = .aggregate ∧ k.kind ≠ .verbatimString := by
  cases k <;> decide

theorem AssocKind.aggregate (k : AssocKind) : k.kind.category = .aggregate ∧ k.kind ≠ .verbatimString := by
  cases k <;> decide

theorem Frame.sized_of_exact {f : Frame fl} {r : Bytes} {src : Source} (h : f.exact = true)
    (hlt : f.bytes.length < 2 ^ 63) (hp : src.Plain) (hb : src.bytes = f.bytes ++ r) : Sized fl f.bytes src := by
  cases f with
  | simple s =>
    rw [Frame.bytes, Frame.payload] at hb hlt ⊢
    exact sized_simple hp hb s.simple (by simpa [Frame.exact] using h) s.accepted hlt
  | bulk | verbatim => cases h
  | seq k xs =>
    obtain rfl : xs = [] := List.isEmpty_iff.mp h
    rw [Frame.bytes, Frame.payload, Frame.children] at hb ⊢
    exact sized_empty hp hb k.aggregate.1 k.aggregate.2
  | assoc k kvs =>
    obtain rfl : kvs = [] := List.isEmpty_iff.mp h
    rw [Frame.bytes, Frame.payload, Frame.pairs] at hb ⊢
    exact sized_empty hp hb k.aggregate.1 k.aggregate.2

/-- Members take more bytes than the size counts for them. -/
theorem count_eq_zero_of_sized {src : Source} {k : Kind} {n : Nat} {t r : Bytes} (hp : src.Plain)
    (hb : src.bytes = k.byte :: (header n ++ t) ++ r) (hk : k.category = .aggregate ∧ k ≠ .verbatimString)
    (hlen : 3 * n ≤ t.length) (h : Sized fl (k.byte :: (header n ++ t)) src) : n = 0 := by
  by_contra hne
  refine not_sized_aggregate hp hb hk.1 ?_ h
  rw [if_neg hk.2]
  omega

theorem Frame.exact_of_sized {f : Frame fl} (h : Sized fl f.bytes [⟨f.bytes, none⟩]) : f.exact = true := by
  have hp : Source.Plain [⟨f.bytes, none⟩] := Source.plain_singleton
  have hb : Source.bytes [⟨f.bytes, none⟩] = f.bytes ++ [] := by simp [Source.bytes]
  cases f with
  | simple s =>
    rw [Frame.exact, Bool.not_eq_true', ← Bool.not_eq_true, List.isEmpty_iff]
    intro hnil
    simp only [Frame.bytes, Frame.payload, Frame.kind, hnil, List.nil_append] at h
    exact not_sized_empty s.simple h
  | bulk k body =>
    rw [Frame.bytes, Frame.payload] at h hb
    refine absurd h (not_sized_aggregate hp hb k.aggregate.1 ?_)
    rw [show (Frame.bulk k body : Frame fl).kind = k.kind from rfl, if_neg k.aggregate.2, List.length_append, eol_length]
    omega
  | verbatim encoding body =>
    rw [Frame.bytes, Frame.payload] at h hb
    refine absurd h (not_sized_aggregate hp hb rfl ?_)
    rw [show (Frame.verbatim encoding body : Frame fl).kind = .verbatimString from rfl]
    simp only [if_true, List.length_append, eol_length]
    omega
  | seq k xs =>
    rw [Frame.bytes, Frame.payload] at h hb
    rw [Frame.exact, List.isEmpty_iff, ← List.length_eq_zero_iff]
    exact count_eq_zero_of_sized hp hb k.aggregate (Frame.children_length xs) h
  | assoc k kvs =>
    have hlen := Frame.pairs_length kvs
    rw [Frame.bytes, Frame.payload] at h hb
    rw [Frame.exact, List.isEmpty_iff, ← List.length_eq_zero_iff]
    exact count_eq_zero_of_sized hp hb k.aggregate (by omega) h

/-- **The size is the number of bytes, whatever follows them, exactly for lines that
are not empty and collections that are.** -/
theorem sized_iff (f : Frame fl) :
    (∀ (r : Bytes) (src : Source), src.Plain → src.bytes = f.bytes ++ r → Sized fl f.bytes src) ↔
      f.exact = true ∧ f.bytes.length < 2 ^ 63 := by
  constructor
  · intro h
    have hsized := h [] [⟨f.bytes, none⟩] Source.plain_singleton (by simp [Source.bytes])
    exact ⟨Frame.exact_of_sized hsized, hsized.length_lt⟩
  · rintro ⟨hexact, hlt⟩ r src hp hb
    exact Frame.sized_of_exact hexact hlt hp hb

/-- **A bulk string is said to be two bytes shorter than it is.** -/
theorem not_sized : ¬ ∀ (f : Frame noFloats) (r : Bytes) (src : Source), src.Plain → src.bytes = f.bytes ++ r →
    Sized noFloats f.bytes src := by
  intro hall
  let f : Frame noFloats := .bulk .string (ascii "a")
  have hsized := hall f [] [⟨f.bytes, none⟩] Source.plain_singleton (by simp [Source.bytes])
  exact Bool.false_ne_true (Frame.exact_of_sized hsized)

end AnarchoRedis.Protocol
