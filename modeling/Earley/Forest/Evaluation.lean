import Earley.Forest.Walk
/-!
# Values of a parse

The values of all derivations of an input, root after root, or of its first derivation only. What
a walk remembers of one root serves the roots after it.
-/

universe u

namespace Earley

/-- The outcome of reading values off a parse. -/
structure Evaluation (β : Type u) where
  /-- The values, or why there are none. -/
  result : Except ParseError β
  /-- What has happened on the walks. -/
  events : Array Event

/-- What there is to say about an evaluation: its reductions. -/
def Evaluation.messages {β : Type u} (evaluation : Evaluation β) : List Message :=
  evaluation.events.toList.filterMap Event.message?

namespace Evaluator

variable {α : Type u} (e : Evaluator α) (p : Parse)

/-- The values of a single state, and what is remembered afterwards. -/
def expand (firstOnly : Bool) (walk : Walk α) (id : Nat) :
    Except ParseError (List α) × Walk α :=
  match Machine.enter e p walk id with
  | .error failure => (.error failure, walk)
  | .ok (walk, entry) => Machine.run e p firstOnly (Machine.ofEntry walk [] entry)

/-- The values of some roots after those that were found before. -/
def expandAll : List Nat → List α → Walk α → Except ParseError (List α) × Walk α
  | [], found, walk => (.ok found, walk)
  | root :: rest, found, walk =>
    match e.expand p false walk root with
    | (.error failure, walk) => (.error failure, walk)
    | (.ok values, walk) =>
      let found := found ++ values
      match e.check found.length with
      | .error failure => (.error failure, walk)
      | .ok _ => expandAll rest found walk

/-- The first value of the first root that has one. -/
def expandFirst : List Nat → Walk α → Except ParseError (Option α) × Walk α
  | [], walk => (.ok none, walk)
  | root :: rest, walk =>
    match e.expand p true walk root with
    | (.error failure, walk) => (.error failure, walk)
    | (.ok (value :: _), walk) => (.ok (some value), walk)
    | (.ok [], walk) => expandFirst rest walk

/-- The values of all derivations of the input. -/
def evalAll : Evaluation (List α) :=
  let outcome := e.expandAll p p.roots [] (.ofChart p.chart)
  { result := outcome.1, events := outcome.2.events }

/-- The value of the first derivation of the input, if it has one. -/
def evalFirst : Evaluation (Option α) :=
  let outcome := e.expandFirst p p.roots (.ofChart p.chart)
  { result := outcome.1, events := outcome.2.events }

end Evaluator

end Earley
