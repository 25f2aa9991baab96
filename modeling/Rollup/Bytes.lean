/-!
# Bytes

Byte strings as lists, with the few operations that the stored formats share: fixed-width numbers
in either byte order, cutting at a length, the order by length and then content, and hexadecimal
text.
-/

namespace Rollup

/-- A byte string. -/
abbrev Bytes := List UInt8

namespace Bytes

/-! ### Fixed-width numbers -/

/-- The lowest `width` bytes of `n`, lowest first. -/
def littleEndian : (width : Nat) → Nat → Bytes
  | 0, _ => []
  | width + 1, n => n.toUInt8 :: littleEndian width (n / 256)

/-- The number written by `bytes`, lowest byte first. -/
def ofLittleEndian : Bytes → Nat
  | [] => 0
  | byte :: rest => byte.toNat + 256 * ofLittleEndian rest

/-- The lowest `width` bytes of `n`, highest first. -/
def bigEndian (width n : Nat) : Bytes := (littleEndian width n).reverse

/-- The number written by `bytes`, highest byte first. -/
def ofBigEndian (bytes : Bytes) : Nat := ofLittleEndian bytes.reverse

/-- How many numbers fit into `width` bytes. -/
def capacity (width : Nat) : Nat := Nat.pow 256 width

/-! ### Cutting -/

/-- The first `n` bytes and the rest, if there are that many. -/
def cut? (n : Nat) (bytes : Bytes) : Option (Bytes × Bytes) :=
  let front := bytes.take n
  if front.length = n then some (front, bytes.drop n) else none

/-- The bytes that lie before `rest`, a tail of `whole`. -/
def consumed (whole rest : Bytes) : Bytes := whole.take (whole.length - rest.length)

/-! ### Order -/

/-- Shorter strings first, strings of one length in byte order. -/
def shortlex (a b : Bytes) : Ordering := (compare a.length b.length).then (compare a b)

/-! ### Hexadecimal text -/

/-- The digit of a number below sixteen, in lower case. -/
def hexDigit (n : Nat) : Char := if n < 10 then Char.ofNat (48 + n) else Char.ofNat (87 + n)

/-- The value of a hexadecimal digit, in either case. -/
def hexValue? (c : Char) : Option Nat :=
  if '0' ≤ c ∧ c ≤ '9' then some (c.toNat - 48)
  else if 'a' ≤ c ∧ c ≤ 'f' then some (c.toNat - 87)
  else if 'A' ≤ c ∧ c ≤ 'F' then some (c.toNat - 55)
  else none

/-- Two lower-case digits for every byte. -/
def toHex (bytes : Bytes) : String :=
  String.ofList (bytes.flatMap fun b => [hexDigit (b.toNat / 16), hexDigit (b.toNat % 16)])

/-- Reads pairs of digits. -/
def ofHexDigits? : List Char → Option Bytes
  | [] => some []
  | [_] => none
  | high :: low :: rest => do
    let h ← hexValue? high
    let l ← hexValue? low
    return (16 * h + l).toUInt8 :: (← ofHexDigits? rest)

/-- Reads hexadecimal text. -/
def ofHex? (text : String) : Option Bytes := ofHexDigits? text.toList

end Bytes

end Rollup
