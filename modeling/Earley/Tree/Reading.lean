import Earley.Forest.Evaluation
import Earley.Tree.Basic
/-!
# Reading trees off a parse

The evaluator whose values are derivation trees, and the trees that an input has.
-/

namespace Earley

/-- Turns words into leaves and rules into nodes. -/
def Tree.evaluator : Evaluator Tree where
  leaf := .leaf
  fallback := some fun rule children => .node rule.head children

/-- The trees of an input, of which no more than a limit may be kept at a time. -/
def Parse.trees (p : Parse) (limit : Option Nat) : Evaluation (List Tree) :=
  (Tree.evaluator.withMaxTrees limit).evalAll p

/-- The first tree of an input, if it has one. -/
def Parse.firstTree (p : Parse) : Evaluation (Option Tree) :=
  Tree.evaluator.evalFirst p

/-- The trees of some words within limits. Words that the grammar does not derive have none. -/
def Grammar.trees (g : Grammar) (limits : Limits) (clock : Clock) (tokens : List String) :
    Except ParseError (List Tree) :=
  match g.parse limits clock tokens with
  | .error halt => .error halt.error
  | .ok p => (p.trees limits.maxTrees).result

end Earley
