import Earley.Duration
import Earley.Text.Quoted
/-!
# Parse errors

Why a parse, or the reading of trees off a parse, gave up. That a grammar does not derive an input
is no error: such an input has no roots and no trees.
-/

namespace Earley

/-- Why a parse, or the reading of its trees, gave up. -/
inductive ParseError where
  /-- The chart came to hold more than this many states. -/
  | stateBudget (limit : Nat)
  /-- The chart took longer than this. -/
  | timeBudget (limit : Duration)
  /-- More than this many alternatives were to be kept. -/
  | treeBudget (limit : Nat)
  /-- A rule, given by its text, has no action. -/
  | missingAction (rule : String)
  /-- A number pointed outside the table that it belongs to. -/
  | outOfRange
  /-- A loop outlasted the bound on its number of rounds. -/
  | outOfFuel
deriving DecidableEq, Repr

namespace ParseError

/-- The wording of a parse error. -/
def message : ParseError → String
  | stateBudget limit => "Parse budget exceeded: more than " ++ toString limit ++ " states"
  | timeBudget limit => "Parse budget exceeded: took longer than " ++ limit.text
  | treeBudget limit => "Parse budget exceeded: more than " ++ toString limit ++ " trees"
  | missingAction rule => "Missing Action: " ++ rule
  | outOfRange => "number out of range"
  | outOfFuel => "bound on rounds exceeded"

/-- The explicit form of a parse error, which names its kind and quotes every text in it. -/
def explicit : ParseError → String
  | stateBudget limit => "StateBudget(" ++ toString limit ++ ")"
  | timeBudget limit => "TimeBudget(" ++ limit.text ++ ")"
  | treeBudget limit => "TreeBudget(" ++ toString limit ++ ")"
  | missingAction rule => "MissingAction(" ++ Text.quoted rule ++ ")"
  | outOfRange => "OutOfRange"
  | outOfFuel => "OutOfFuel"

/-- Whether the reason lies in the limits that were set. -/
def isBudget : ParseError → Bool
  | stateBudget _ => true
  | timeBudget _ => true
  | treeBudget _ => true
  | _ => false

end ParseError

end Earley
