import Rollup.Bytes
import Rollup.Json.Number

/-!
# JSON tokens

Cuts a text into the tokens of JSON.  A token keeps what it writes only if that can be had: a
number may be too large for a double, and an escaped surrogate may stand alone.
-/

namespace Rollup

inductive JsonToken where
  | openArray
  | closeArray
  | openObject
  | closeObject
  | comma
  | colon
  | null
  | bool (b : Bool)
  | number (n : Option JsonNumber)
  | string (s : Option String)
deriving DecidableEq, Repr

namespace JsonToken

/-- The four characters that may stand between tokens. -/
def isSpace (c : Char) : Bool := c = ' ' || c = '\n' || c = '\t' || c = '\r'

/-! ### Strings -/

/-- The text up to the closing quote, and what follows it. -/
def splitString : List Char → Option (List Char × List Char)
  | [] => none
  | '"' :: rest => some ([], rest)
  | '\\' :: c :: rest => (splitString rest).map fun (body, rest) => ('\\' :: c :: body, rest)
  | c :: rest => (splitString rest).map fun (body, rest) => (c :: body, rest)

theorem splitString_le {cs body rest : List Char} (h : splitString cs = some (body, rest)) :
    rest.length < cs.length := by
  fun_induction splitString cs generalizing body rest with
  | case1 => simp at h
  | case2 tail => simp_all
  | case3 c tail ih =>
    obtain ⟨⟨b, r⟩, hr, heq⟩ := Option.map_eq_some_iff.1 h
    have := ih hr
    simp_all; omega
  | case4 c tail _ _ ih =>
    obtain ⟨⟨b, r⟩, hr, heq⟩ := Option.map_eq_some_iff.1 h
    have := ih hr
    simp_all; omega

/-- A piece of a string: a character, or a code unit of sixteen bits that an escape writes. -/
inductive Piece where
  | char (c : Char)
  | unit (n : Nat)

/-- The character that a one-letter escape writes. -/
def escaped? (c : Char) : Option Char :=
  match c with
  | '"' => some '"'
  | '\\' => some '\\'
  | '/' => some '/'
  | 'b' => some (Char.ofNat 8)
  | 'f' => some (Char.ofNat 12)
  | 'n' => some '\n'
  | 'r' => some '\r'
  | 't' => some '\t'
  | _ => none

/-- Takes the escapes out of the body of a string; controls have to be escaped. -/
def piecesOf : List Char → Option (List Piece)
  | [] => some []
  | '\\' :: 'u' :: a :: b :: c :: d :: rest => do
    let a ← Bytes.hexValue? a
    let b ← Bytes.hexValue? b
    let c ← Bytes.hexValue? c
    let d ← Bytes.hexValue? d
    return .unit (4096 * a + 256 * b + 16 * c + d) :: (← piecesOf rest)
  | '\\' :: c :: rest => do
    let c ← escaped? c
    return .char c :: (← piecesOf rest)
  | c :: rest =>
    if c = '\\' ∨ c.toNat < 0x20 then none
    else do return .char c :: (← piecesOf rest)

def isHighSurrogate (n : Nat) : Bool := 0xD800 ≤ n && n < 0xDC00

def isLowSurrogate (n : Nat) : Bool := 0xDC00 ≤ n && n < 0xE000

/-- Joins the code units of surrogate pairs; none may stand alone. -/
def joinUnits : List Piece → Option (List Char)
  | [] => some []
  | .char c :: rest => (joinUnits rest).map (c :: ·)
  | .unit n :: rest =>
    if isHighSurrogate n then
      match rest with
      | .unit m :: rest =>
        if isLowSurrogate m then
          (joinUnits rest).map (Char.ofNat (0x10000 + 1024 * (n - 0xD800) + (m - 0xDC00)) :: ·)
        else none
      | _ => none
    else if isLowSurrogate n then none
    else (joinUnits rest).map (Char.ofNat n :: ·)

/-- The token of a string with this body. -/
def ofStringBody (body : List Char) : Option JsonToken := do
  let pieces ← piecesOf body
  return .string ((joinUnits pieces).map String.ofList)

/-! ### Numbers and words -/

/-- The characters that numbers are made of. -/
def isNumberChar (c : Char) : Bool :=
  NumberText.isDigit c || c = '-' || c = '+' || c = '.' || c = 'e' || c = 'E'

def ofNumber (cs : List Char) : Option JsonToken := do
  let t ← NumberText.ofChars? cs
  return .number t.value?

def isLetter (c : Char) : Bool := 'a' ≤ c && c ≤ 'z'

def ofWord (word : String) : Option JsonToken :=
  if word = "null" then some .null
  else if word = "true" then some (.bool true)
  else if word = "false" then some (.bool false)
  else none

/-- A token that is one character. -/
def ofMark? (c : Char) : Option JsonToken :=
  match c with
  | '[' => some .openArray
  | ']' => some .closeArray
  | '{' => some .openObject
  | '}' => some .closeObject
  | ',' => some .comma
  | ':' => some .colon
  | _ => none

theorem length_dropWhile_le (p : Char → Bool) (cs : List Char) :
    (cs.dropWhile p).length ≤ cs.length :=
  (List.dropWhile_sublist p).length_le

/-- The tokens of a text. -/
def scan (cs : List Char) : Option (List JsonToken) :=
  match cs with
  | [] => some []
  | c :: rest =>
    if isSpace c then scan rest
    else if c = '"' then
      match h : splitString rest with
      | none => none
      | some (body, after) => do
        have := splitString_le h
        let token ← ofStringBody body
        return token :: (← scan after)
    else
      match ofMark? c with
      | some token => do return token :: (← scan rest)
      | none =>
        if c = '-' ∨ NumberText.isDigit c then do
          have := length_dropWhile_le isNumberChar rest
          let token ← ofNumber (c :: rest.takeWhile isNumberChar)
          return token :: (← scan (rest.dropWhile isNumberChar))
        else do
          have := length_dropWhile_le isLetter rest
          let token ← ofWord (String.ofList (c :: rest.takeWhile isLetter))
          return token :: (← scan (rest.dropWhile isLetter))
termination_by cs.length

end JsonToken

end Rollup
