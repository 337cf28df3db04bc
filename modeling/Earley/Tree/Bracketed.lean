import Earley.Text.Quoted
import Earley.Tree.Basic
/-!
# Trees as text

The bracketed form of a tree stands on one line: every leaf and node is a pair of parentheses
around its name and, after a blank each, its word or its children. The explicit form names the two
kinds of trees and quotes every name and word.
-/

namespace Earley.Tree

mutual

/-- The bracketed form of a tree. -/
def bracketed : Tree → String
  | leaf symbol word => "(" ++ symbol ++ " " ++ word ++ ")"
  | node label children => "(" ++ label ++ bracketedAll children ++ ")"

/-- The bracketed forms of some trees, each after a blank. -/
def bracketedAll : List Tree → String
  | [] => ""
  | t :: ts => " " ++ bracketed t ++ bracketedAll ts

end

example : (node "S" [leaf "V" "book", node "A" []]).bracketed = "(S (V book) (A))" := rfl

mutual

/-- The explicit form of a tree. -/
def explicit : Tree → String
  | leaf symbol word => "Leaf(" ++ Text.quoted symbol ++ ", " ++ Text.quoted word ++ ")"
  | node label children =>
    "Node(" ++ Text.quoted label ++ ", [" ++ ", ".intercalate (explicitAll children) ++ "])"

/-- The explicit forms of some trees. -/
def explicitAll : List Tree → List String
  | [] => []
  | t :: ts => explicit t :: explicitAll ts

end

end Earley.Tree
