/-!
# Lines

A text is read as the pieces between its line feeds and written by closing each line with one. A
carriage return before a line feed stays in the piece: it is a blank, and what is read is trimmed
or cut into words, so whether one is there makes no difference.
-/

namespace Earley.Text

/-- The pieces of a text between line feeds. -/
def lines (text : List Char) : List (List Char) :=
  text.splitOn '\n'

/-- A text made of the given lines, each closed by a line feed. -/
def closeLines (lines : List String) : String :=
  String.join (lines.map (· ++ "\n"))

@[simp] theorem lines_nil : lines [] = [[]] := rfl

theorem lines_append_cons {line : List Char} (h : '\n' ∉ line) (rest : List Char) :
    lines (line ++ '\n' :: rest) = line :: lines rest :=
  List.splitOn_append_cons_self_of_not_mem h rest

end Earley.Text
