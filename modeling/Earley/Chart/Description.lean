import Earley.Chart.Basic
import Earley.Grammar.Basic
/-!
# Descriptions of states

One line of text for each state of a chart: its span, its production with a dot at the place
where the match has come to, and the number of its sources.
-/

namespace Earley.Chart

/-- The head of a state's production and the names of the symbols on its right-hand side. A lexeme
shows the word at its origin. Gives `none` for a rule or a word that does not exist. -/
def production? (c : Chart) (g : Grammar) (s : State) : Option (String × List String) :=
  match s.production with
  | .start => some ("START", [g.start])
  | .rule id => g.rules[id]?.map fun rule => (rule.head, rule.rhs.map Symbol.name)
  | .lexeme symbol => c.tokens[s.origin]?.map fun word => (symbol.name, [word])

/-- The description of a state, or `none` if the state, its production or the place of its dot
does not exist. -/
def describe? (c : Chart) (g : Grammar) (id : Nat) : Option String := do
  let s ← c.states[id]?
  let (head, rhs) ← c.production? g s
  if rhs.length < s.dot then none
  else some <|
    "(" ++ toString s.origin ++ " - " ++ toString s.stop ++ ") " ++ head ++ " -> " ++
      " ".intercalate (rhs.take s.dot) ++ " · " ++ " ".intercalate (rhs.drop s.dot) ++
      " #bp: " ++ toString s.sources.length

end Earley.Chart
