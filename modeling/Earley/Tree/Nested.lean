import Earley.Tree.Basic
/-!
# Trees as JSON values

Every leaf and node of a tree becomes an object whose only field bears its name. The field holds
the word of a leaf, and the array of the children of a node.
-/

namespace Earley

/-- A JSON value built from strings, arrays, and objects with one field. -/
inductive Json where
  /-- A string. -/
  | string (text : String)
  /-- An array. -/
  | array (items : List Json)
  /-- An object with one field. -/
  | object (key : String) (value : Json)
deriving Repr

namespace Tree

mutual

/-- The JSON value of a tree. -/
def nested : Tree → Json
  | leaf symbol word => .object symbol (.string word)
  | node label children => .object label (.array (nestedAll children))

/-- The JSON values of some trees. -/
def nestedAll : List Tree → List Json
  | [] => []
  | t :: ts => nested t :: nestedAll ts

end

end Tree

end Earley
