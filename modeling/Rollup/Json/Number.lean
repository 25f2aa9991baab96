import Rollup.Bytes
import Rollup.Json
import Rollup.Number.Shortest

/-!
# JSON numbers

Reads numbers in JSON's notation and writes them.  An integer that fits into 64 bits, with or
without a sign, is an integer; everything else is a double.  A double is computed from the first
digits that fit into 64 bits, by one exact scaling step after the other.
-/

namespace Rollup

/-- The parts of a number as it is written. -/
structure NumberText where
  negative : Bool
  whole : List Nat
  fraction : Option (List Nat)
  /-- The sign and the digits of the exponent. -/
  exponent : Option (Bool × List Nat)
deriving DecidableEq, Repr

namespace NumberText

def isDigit (c : Char) : Bool := '0' ≤ c && c ≤ '9'

def digitsOf (cs : List Char) : List Nat := cs.map fun c => c.toNat - 48

/-- The number that decimal digits write. -/
def numberOf (digits : List Nat) : Nat := digits.foldl (fun n d => 10 * n + d) 0

/-- Splits the leading digits off. -/
def spanDigits (cs : List Char) : List Nat × List Char :=
  (digitsOf (cs.takeWhile isDigit), cs.dropWhile isDigit)

/-- The exponent behind its letter. -/
def readExponent (cs : List Char) : Option (Bool × List Nat) :=
  let (negative, cs) :=
    match cs with
    | '-' :: rest => (true, rest)
    | '+' :: rest => (false, rest)
    | _ => (false, cs)
  match spanDigits cs with
  | ([], _) => none
  | (digits, []) => some (negative, digits)
  | (_, _ :: _) => none

/-- What may follow the digits before the point. -/
def readTail (negative : Bool) (whole : List Nat) : List Char → Option NumberText
  | [] => some ⟨negative, whole, none, none⟩
  | '.' :: rest =>
    match spanDigits rest with
    | ([], _) => none
    | (fraction, []) => some ⟨negative, whole, some fraction, none⟩
    | (fraction, c :: rest) =>
      if c = 'e' ∨ c = 'E' then
        (readExponent rest).map fun e => ⟨negative, whole, some fraction, some e⟩
      else none
  | c :: rest =>
    if c = 'e' ∨ c = 'E' then (readExponent rest).map fun e => ⟨negative, whole, none, some e⟩
    else none

/-- Reads a whole text as a number; no digit may follow a leading zero. -/
def ofChars? (cs : List Char) : Option NumberText :=
  let (negative, cs) :=
    match cs with
    | '-' :: rest => (true, rest)
    | _ => (false, cs)
  match spanDigits cs with
  | ([], _) => none
  | (0 :: _ :: _, _) => none
  | (whole, rest) => readTail negative whole rest

/-! ### Value -/

/-- The digits of a number that fit into 64 bits, in order, and how many were left over. -/
def fitDigits : (significand : Nat) → List Nat → Nat × Nat
  | significand, [] => (significand, 0)
  | significand, d :: ds =>
    let next := 10 * significand + d
    if next < Bytes.capacity 8 then fitDigits next ds else (significand, ds.length + 1)

/-- `significand * 10 ^ power`, if it is finite: steps of `10 ^ 308` down as long as the power is
out of reach, and then one step. -/
def scale? (significand : Magnitude) (power : Int) : Option Magnitude :=
  if significand.isZero then some .zero
  else if 308 < power then none
  else if 0 ≤ power then do significand.mul? (← Magnitude.ofNat? (Nat.pow 10 power.toNat))
  else if -308 ≤ power then do significand.div? (← Magnitude.ofNat? (Nat.pow 10 (-power).toNat))
  else do
    let next ← significand.div? (← Magnitude.ofNat? (Nat.pow 10 308))
    scale? next (power + 308)
termination_by (-power).toNat
decreasing_by omega

/-- The number as a double, if it is finite. -/
def double? (t : NumberText) : Option Binary64 := do
  let (significand, skipped) := fitDigits 0 t.whole
  let fraction := t.fraction.getD []
  let (significand, ignored) := fitDigits significand fraction
  let exponent : Int :=
    match t.exponent with
    | none => 0
    | some (negative, digits) =>
      let n : Int := (numberOf digits : Nat)
      if negative then -n else n
  let power := (skipped : Int) - ((fraction.length - ignored : Nat) : Int) + exponent
  let magnitude ← scale? (← Magnitude.ofNat? significand) power
  return ⟨t.negative, magnitude⟩

/-- The number that is written, if it is finite. -/
def value? (t : NumberText) : Option JsonNumber :=
  let (n, skipped) := fitDigits 0 t.whole
  if t.fraction.isSome || t.exponent.isSome || skipped ≠ 0 then t.double?.map .double
  else if !t.negative then some (.integer n)
  else if n = 0 ∨ -(n : Int) < Int64.minValue.toInt then t.double?.map .double
  else some (.integer (-n))

end NumberText

/-! ### Writing -/

/-- How doubles are written: positional between two powers of ten of the leading digit, and always
with a point there; otherwise with a signed exponent. -/
structure DoubleFormat where
  leastPositional : Int
  greatestPositional : Int

def JsonNumber.format : DoubleFormat := ⟨-5, 15⟩

namespace DoubleFormat

/-- Digits with the point behind the one of power zero; `lead` is the power of the first. -/
def positional (digits : List Char) (lead : Int) : List Char :=
  if lead < 0 then "0.".toList ++ List.replicate (-lead - 1).toNat '0' ++ digits
  else
    let before := lead.toNat + 1
    if digits.length ≤ before then
      digits ++ List.replicate (before - digits.length) '0' ++ ".0".toList
    else digits.take before ++ '.' :: digits.drop before

/-- Digits with the point behind the first, and an exponent. -/
def scientific (digits : List Char) (lead : Int) : List Char :=
  let body :=
    match digits with
    | [] | [_] => digits
    | first :: rest => first :: '.' :: rest
  let sign := if lead < 0 then '-' else '+'
  body ++ 'e' :: sign :: Nat.toDigits 10 lead.natAbs

/-- The shortest text of a positive magnitude. -/
def magnitude (f : DoubleFormat) (x : Magnitude) : List Char :=
  let t := x.shortest
  let digits := Nat.toDigits 10 t.digits
  let lead := t.power + digits.length - 1
  let significant := (digits.reverse.dropWhile (· = '0')).reverse
  if f.leastPositional ≤ lead ∧ lead ≤ f.greatestPositional then positional significant lead
  else scientific significant lead

def text (f : DoubleFormat) (x : Binary64) : String :=
  let sign := if x.negative then ['-'] else []
  let body := if x.magnitude.isZero then "0.0".toList else f.magnitude x.magnitude
  String.ofList (sign ++ body)

end DoubleFormat

def JsonNumber.text : JsonNumber → String
  | .integer n => toString n
  | .double x => format.text x

/-! ### Read and written again -/

example : ((NumberText.ofChars? "0.00001".toList).bind (·.value?)).map (·.text) =
    some "0.00001" := by decide +kernel

example : ((NumberText.ofChars? "100000000000000000000".toList).bind (·.value?)).map (·.text) =
    some "1e+20" := by decide +kernel

example : ((NumberText.ofChars? "-0".toList).bind (·.value?)).map (·.text) =
    some "-0.0" := by decide +kernel

end Rollup
