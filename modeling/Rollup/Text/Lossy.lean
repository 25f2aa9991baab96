import Rollup.Bytes

/-!
# Lossy text

Reads any byte string as text.  Where the bytes are not UTF-8, each longest run that could still
have begun a character becomes one replacement character, and reading goes on behind it.
-/

namespace Rollup.Text

/-- A character of which some bytes are still missing; the next one must lie in `[low, high]`. -/
structure Partial where
  missing : Nat
  low : UInt8
  high : UInt8
  bits : Nat

/-- What a byte is at the start of a character. -/
inductive Lead where
  | complete (c : Char)
  | opens (p : Partial)
  | stray

/-- The replacement character. -/
def replacement : Char := Char.ofNat 0xFFFD

/-- Well-formed sequences have no overlong forms, no surrogates and nothing above U+10FFFF. -/
def lead (b : UInt8) : Lead :=
  if b < 0x80 then .complete (Char.ofNat b.toNat)
  else if b < 0xC2 then .stray
  else if b < 0xE0 then .opens ⟨1, 0x80, 0xBF, b.toNat - 0xC0⟩
  else if b < 0xF0 then
    let low := if b = 0xE0 then 0xA0 else 0x80
    let high := if b = 0xED then 0x9F else 0xBF
    .opens ⟨2, low, high, b.toNat - 0xE0⟩
  else if b < 0xF5 then
    let low := if b = 0xF0 then 0x90 else 0x80
    let high := if b = 0xF4 then 0x8F else 0xBF
    .opens ⟨3, low, high, b.toNat - 0xF0⟩
  else .stray

/-- Reads on, with the character begun so far. -/
def lossyChars : Option Partial → Bytes → List Char
  | none, [] => []
  | some _, [] => [replacement]
  | begun, b :: rest =>
    let afresh := fun (_ : Unit) =>
      match lead b with
      | .complete c => c :: lossyChars none rest
      | .opens p => lossyChars (some p) rest
      | .stray => replacement :: lossyChars none rest
    match begun with
    | none => afresh ()
    | some p =>
      if p.low ≤ b ∧ b ≤ p.high then
        let bits := p.bits * 64 + (b.toNat - 0x80)
        if p.missing ≤ 1 then Char.ofNat bits :: lossyChars none rest
        else lossyChars (some ⟨p.missing - 1, 0x80, 0xBF, bits⟩) rest
      else replacement :: afresh ()

/-- The text of any byte string. -/
def lossy (bytes : Bytes) : String := String.ofList (lossyChars none bytes)

end Rollup.Text
