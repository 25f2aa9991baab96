import Rollup.Text.Split

/-!
# Field paths

A path names a value, or a sequence of values, inside a document.  Names joined by dots descend
through maps; a comma fans out over the elements of an array, and every further comma beside it
flattens one more level of arrays first.

* `Address.City` descends.
* `Friends,Name` takes the name of every friend.
* `Items,,Bar.Foo` takes `Bar.Foo` from every element of every element of the items.
-/

namespace Rollup

/-- One fan-out: how many extra levels of arrays it flattens, and the names it descends after. -/
structure FieldStep where
  levels : Nat
  names : List String
deriving DecidableEq, Repr

/-- A parsed path: the names before the first comma, and a step for each group of commas. -/
structure FieldPath where
  head : List String
  steps : List FieldStep
deriving DecidableEq, Repr

/-- What keeps a text from being a path. -/
inductive PathFlaw where
  | noName
  | emptyName
  | trailingComma
deriving DecidableEq, Repr

/-- A text that is no path. -/
structure PathError where
  path : String
  flaw : PathFlaw
deriving DecidableEq, Repr

def PathFlaw.message : PathFlaw → String
  | .noName => "path must start with a field name"
  | .emptyName => "empty field name"
  | .trailingComma => "path cannot end with ','"

def PathError.message (e : PathError) : String :=
  s!"invalid field path '{e.path}': {e.flaw.message}"

namespace FieldPath

/-! ### Reading a text -/

/-- The names of one part of a path, between commas. -/
def namesOf (part : List Char) : Except PathFlaw (List String) :=
  let names := Text.splitAt '.' part
  if names.any List.isEmpty then .error .emptyName else .ok (names.map String.ofList)

/-- The steps of the parts behind the head; `levels` empty parts came just before. -/
def stepsOf : (levels : Nat) → List (List Char) → Except PathFlaw (List FieldStep)
  | 0, [] => .ok []
  | _ + 1, [] => .error .trailingComma
  | levels, [] :: parts => stepsOf (levels + 1) parts
  | levels, part :: parts => do
    let names ← namesOf part
    let steps ← stepsOf 0 parts
    return ⟨levels, names⟩ :: steps

/-- The path of a list of characters. -/
def ofChars (chars : List Char) : Except PathFlaw FieldPath :=
  match Text.splitAt ',' chars with
  | [] | [] :: _ => .error .noName
  | first :: parts => do
    let head ← namesOf first
    let steps ← stepsOf 0 parts
    return ⟨head, steps⟩

/-- The path that a text writes. -/
def parse (text : String) : Except PathError FieldPath :=
  (ofChars text.toList).mapError (PathError.mk text)

/-! ### Writing it back -/

/-- Commas, one more than the levels, and the names behind them. -/
def stepText (step : FieldStep) : String :=
  String.ofList (List.replicate (step.levels + 1) ',') ++ String.intercalate "." step.names

/-- The text of a path. -/
def text (path : FieldPath) : String :=
  String.intercalate "." path.head ++ String.join (path.steps.map stepText)

/-- Whether the path names a sequence of values. -/
def isMany (path : FieldPath) : Bool := !path.steps.isEmpty

end FieldPath

end Rollup
