import Earley.Duration
/-!
# Limits

Bounds that keep an unfortunate grammar or input from running away: on the number of states of a
chart, on the time spent to build it, and on the alternatives kept while trees are read off it.
-/

namespace Earley

/-- The time that has passed since a parse began, at each moment the parse looks at the clock. The
moments are counted from zero. -/
abbrev Clock := Nat → Duration

/-- The bounds within which a parse has to stay, where `none` sets no bound. -/
structure Limits where
  /-- The most states that a chart may have. -/
  maxStates : Option Nat := some 1000000
  /-- The longest time that a chart may take. -/
  maxDuration : Option Duration := none
  /-- The most alternatives that may be kept for a node or for the whole input. -/
  maxTrees : Option Nat := some 10000
deriving DecidableEq, Repr

namespace Limits

/-- No bounds at all. -/
def unbounded : Limits where
  maxStates := none
  maxDuration := none
  maxTrees := none

/-- The text of a bound that may be missing. -/
def boundText : Option String → String
  | none => "None"
  | some bound => "Some(" ++ bound ++ ")"

/-- The text of some limits, which names each bound. -/
def text (limits : Limits) : String :=
  "EarleyConfig \x7b max_states: " ++ boundText (limits.maxStates.map toString) ++
    ", max_duration: " ++ boundText (limits.maxDuration.map Duration.text) ++
    ", max_trees: " ++ boundText (limits.maxTrees.map toString) ++ " \x7d"

end Limits

end Earley
