/-!
# Strict UTF-8

Decoding of UTF-8 that refuses every malformed sequence and reports the bytes of the first one: the
longest run that still starts some well-formed sequence, or the single byte that starts none.
-/

namespace Lineage.Text.Utf8

/-! ## Faults -/

/-- Why a run of bytes is malformed. -/
inductive Reason
  | invalidStart
  | invalidContinuation
  | unexpectedEnd
  deriving DecidableEq, Repr

/-- The first malformed run: its offset, its length and its first byte. -/
structure Fault where
  offset : Nat
  length : Nat
  first : UInt8
  reason : Reason
  deriving DecidableEq, Repr

/-! ## Sequences -/

/-- An unfinished sequence: the bytes read, the bytes missing and the bounds of the next one. -/
structure Sequence where
  first : UInt8
  read : Nat
  missing : Nat
  lower : UInt8
  upper : UInt8
  value : Nat

/-- What a byte starts: a whole character, a longer sequence, or nothing. -/
inductive Start
  | whole (c : Char)
  | longer (p : Sequence)
  | invalid

/-- Classifies the first byte of a sequence; the bounds exclude overlong forms and surrogates. -/
def start (b : UInt8) : Start :=
  let n := b.toNat
  if n < 0x80 then .whole (Char.ofNat n)
  else if n < 0xC2 then .invalid
  else if n < 0xE0 then .longer ⟨b, 1, 1, 0x80, 0xBF, n - 0xC0⟩
  else if n < 0xF0 then
    .longer ⟨b, 1, 2, if n == 0xE0 then 0xA0 else 0x80, if n == 0xED then 0x9F else 0xBF, n - 0xE0⟩
  else if n < 0xF5 then
    .longer ⟨b, 1, 3, if n == 0xF0 then 0x90 else 0x80, if n == 0xF4 then 0x8F else 0xBF, n - 0xF0⟩
  else .invalid

/-- Takes the next byte of an unfinished sequence, which has to lie within its bounds. -/
def Sequence.push? (p : Sequence) (b : UInt8) : Option Sequence :=
  if p.lower ≤ b ∧ b ≤ p.upper then
    some ⟨p.first, p.read + 1, p.missing - 1, 0x80, 0xBF, p.value * 64 + (b.toNat - 0x80)⟩
  else none

/-! ## Decoding -/

/-- Decodes the bytes from `offset` on, `p` being the sequence that starts there. -/
def decodeFrom (offset : Nat) (p : Option Sequence) : List UInt8 → Except Fault (List Char)
  | [] =>
    match p with
    | none => .ok []
    | some p => .error ⟨offset, p.read, p.first, .unexpectedEnd⟩
  | b :: bs =>
    match p with
    | none =>
      match start b with
      | .whole c => (decodeFrom (offset + 1) none bs).map (c :: ·)
      | .longer p => decodeFrom offset (some p) bs
      | .invalid => .error ⟨offset, 1, b, .invalidStart⟩
    | some p =>
      match p.push? b with
      | none => .error ⟨offset, p.read, p.first, .invalidContinuation⟩
      | some p =>
        if p.missing = 0 then
          (decodeFrom (offset + p.read) none bs).map (Char.ofNat p.value :: ·)
        else decodeFrom offset (some p) bs

def decode (bytes : List UInt8) : Except Fault (List Char) :=
  decodeFrom 0 none bytes

/-! ## Line ends -/

/-- Writes every line end as a line feed: a carriage return counts alone or with its line feed. -/
def unifyLineEnds : List Char → List Char
  | [] => []
  | '\r' :: cs =>
    match cs with
    | '\n' :: rest => '\n' :: unifyLineEnds rest
    | rest => '\n' :: unifyLineEnds rest
  | c :: cs => c :: unifyLineEnds cs

end Lineage.Text.Utf8
