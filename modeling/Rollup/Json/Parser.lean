import Rollup.Json.Token

/-!
# Parsing JSON

The tokens of a text drive a machine with a stack of open arrays and objects, so that nesting costs
no recursion.  The machine builds the text's tree as it is written; reading data from the tree is a
second step, which refuses what nests too deeply and what a token could not keep.
-/

namespace Rollup

/-- A text as it is written: members in their order, with repeated names, and gaps where a number
or string could not be kept. -/
inductive JsonTree where
  | null
  | bool (b : Bool)
  | number (n : Option JsonNumber)
  | string (s : Option String)
  | array (items : List JsonTree)
  | object (members : List (Option String × JsonTree))
deriving Inhabited

namespace JsonTree

/-! ### The machine -/

/-- An open array with its items so far, or an open object with its members and the name of the
next one; the last one read comes first. -/
inductive Frame where
  | array (items : List JsonTree)
  | object (members : List (Option String × JsonTree)) (name : Option String)

/-- What may come next. -/
inductive Expected where
  | value
  /-- A value, or the end of the array just opened. -/
  | firstItem
  /-- A name, or the end of the object just opened. -/
  | firstName
  | name
  | colon
  /-- A comma, or the end of what is open. -/
  | next
  /-- Nothing: the text is complete. -/
  | nothing (tree : JsonTree)

structure Machine where
  frames : List Frame
  expected : Expected

namespace Machine

def start : Machine := ⟨[], .value⟩

/-- A value is complete. -/
def complete (tree : JsonTree) : List Frame → Machine
  | [] => ⟨[], .nothing tree⟩
  | .array items :: frames => ⟨.array (tree :: items) :: frames, .next⟩
  | .object members name :: frames => ⟨.object ((name, tree) :: members) none :: frames, .next⟩

/-- A token where a value may stand. -/
def takeValue (frames : List Frame) : JsonToken → Option Machine
  | .openArray => some ⟨.array [] :: frames, .firstItem⟩
  | .openObject => some ⟨.object [] none :: frames, .firstName⟩
  | .null => some (complete .null frames)
  | .bool b => some (complete (.bool b) frames)
  | .number n => some (complete (.number n) frames)
  | .string s => some (complete (.string s) frames)
  | _ => none

/-- A string where a name has to stand. -/
def takeName : List Frame → JsonToken → Option Machine
  | .object members _ :: frames, .string name => some ⟨.object members name :: frames, .colon⟩
  | _, _ => none

/-- A closing token, for what was opened last. -/
def close : List Frame → JsonToken → Option Machine
  | .array items :: frames, .closeArray => some (complete (.array items.reverse) frames)
  | .object members _ :: frames, .closeObject => some (complete (.object members.reverse) frames)
  | _, _ => none

/-- A comma between items or members. -/
def separate : List Frame → Option Machine
  | .array items :: frames => some ⟨.array items :: frames, .value⟩
  | .object members name :: frames => some ⟨.object members name :: frames, .name⟩
  | [] => none

def step (m : Machine) (token : JsonToken) : Option Machine :=
  match m.expected with
  | .value => takeValue m.frames token
  | .firstItem => (close m.frames token) <|> (takeValue m.frames token)
  | .firstName => (close m.frames token) <|> (takeName m.frames token)
  | .name => takeName m.frames token
  | .colon => if token = .colon then some ⟨m.frames, .value⟩ else none
  | .next => if token = .comma then separate m.frames else close m.frames token
  | .nothing _ => none

end Machine

/-- The tree of a whole text. -/
def parse (text : String) : Option JsonTree := do
  let tokens ← JsonToken.scan text.toList
  let m ← tokens.foldlM Machine.step Machine.start
  match m.expected with
  | .nothing tree => some tree
  | _ => none

/-! ### Data -/

/-- How many arrays and objects may be open at once. -/
def maxNesting : Nat := 127

mutual
/-- The data of a tree inside of `depth` open arrays and objects. -/
def toJson? (depth : Nat) : JsonTree → Option Json
  | .null => some .null
  | .bool b => some (.bool b)
  | .number n => n.map .number
  | .string s => s.map .string
  | .array items => if depth < maxNesting then (itemsJson? (depth + 1) items).map .array else none
  | .object members =>
    if depth < maxNesting then (membersJson? (depth + 1) members).map Json.ofMembers else none

def itemsJson? (depth : Nat) : List JsonTree → Option (List Json)
  | [] => some []
  | item :: items => do
    let item ← toJson? depth item
    return item :: (← itemsJson? depth items)

def membersJson? (depth : Nat) : List (Option String × JsonTree) → Option (List (String × Json))
  | [] => some []
  | (name, value) :: members => do
    let name ← name
    let value ← toJson? depth value
    return (name, value) :: (← membersJson? depth members)
end

end JsonTree

/-- The data that a text writes. -/
def Json.parse (text : String) : Option Json := do (← JsonTree.parse text).toJson? 0

end Rollup
