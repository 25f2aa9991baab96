import Rollup.Bytes

/-!
# Splitting

Cutting a list at a separator, and the bytes of a text into its lines.
-/

namespace Rollup.Text

/-- The parts between separators: one more than there are separators. -/
def splitAt {α : Type} [DecidableEq α] (sep : α) : List α → List (List α)
  | [] => [[]]
  | c :: rest =>
    if c = sep then [] :: splitAt sep rest
    else
      match splitAt sep rest with
      | [] => [[c]]
      | part :: parts => (c :: part) :: parts

theorem splitAt_ne_nil {α : Type} [DecidableEq α] (sep : α) (s : List α) : splitAt sep s ≠ [] := by
  cases s with
  | nil => simp [splitAt]
  | cons c rest =>
    rw [splitAt]
    split
    · simp
    · split <;> simp

/-- Drops one carriage return at the end. -/
def dropReturn (line : Bytes) : Bytes :=
  if line.getLast? = some 0x0D then line.dropLast else line

/-- The lines of a text.  A line ends with a newline or a return and a newline; what is behind the
last newline is a line of its own, as it stands, unless it is empty. -/
def lines (text : Bytes) : List Bytes :=
  let parts := splitAt 0x0A text
  let ended := parts.dropLast.map dropReturn
  match parts.getLast? with
  | none | some [] => ended
  | some rest => ended ++ [rest]

end Rollup.Text
