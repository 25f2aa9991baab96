import Rollup.Number.Binary64

/-!
# JSON

JSON data.  An object lists its members by ascending name and has no name twice.
-/

namespace Rollup

/-- A JSON number: an integer, or a double. -/
inductive JsonNumber where
  | integer (n : Int)
  | double (x : Binary64)
deriving DecidableEq, Repr

inductive Json where
  | null
  | bool (b : Bool)
  | number (n : JsonNumber)
  | string (s : String)
  | array (items : List Json)
  | object (members : List (String × Json))
deriving Inhabited

namespace Json

/-- Puts a member in its place among ascending names, over one of the same name. -/
def insertMember (name : String) (value : Json) : List (String × Json) → List (String × Json)
  | [] => [(name, value)]
  | member :: rest =>
    match compare name member.1 with
    | .lt => (name, value) :: member :: rest
    | .eq => (name, value) :: rest
    | .gt => member :: insertMember name value rest

/-- The object of a list of members; a later one wins over an earlier one of the same name. -/
def ofMembers (members : List (String × Json)) : Json :=
  .object (members.foldl (fun sorted member => insertMember member.1 member.2 sorted) [])

end Json

end Rollup
