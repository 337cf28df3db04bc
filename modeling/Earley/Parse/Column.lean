import Earley.Chart.Basic
import Earley.Grammar.Basic
import Earley.Limits
import Earley.Log
import Earley.Parse.Error
/-!
# Closing a column

The states of a column call for more states. One that waits for a nonterminal predicts its rules
here, one that waits for a terminal may match the next word and so reach the next column, and a
complete one advances every state that waited for its symbol where the match began. A column is
closed by walking over it, as it grows, until nothing calls for anything new.

A completed match of no words can come too early: the states that wait for its symbol may only
appear later in the same column. A walk that saw such a match and changed the chart is repeated.
-/

namespace Earley

/-- A chart under construction, with what is noted about the current walk. -/
structure Growth where
  /-- The chart. -/
  chart : Chart
  /-- Whether a prediction or a completion of the current walk has changed the chart. -/
  changed : Bool := false
  /-- Whether the current walk has met a complete state that spans no words. -/
  sawEmpty : Bool := false
  /-- How many times the limits were checked. -/
  checks : Nat := 0

namespace Growth

/-- Inserts a state and notes whether that changed the chart. -/
def insert (growth : Growth) (s : State) : Except ParseError Growth :=
  match growth.chart.insert? s with
  | none => .error .outOfRange
  | some (insertion, chart) =>
    .ok { growth with chart := chart, changed := growth.changed || insertion.isChange }

/-- The chart of some words that holds only a match of the start production about to begin. -/
def seed (tokens : List String) : Except ParseError Growth :=
  ({ chart := .ofTokens tokens } : Growth).insert (.predict .start 1 0)

end Growth

namespace Grammar

variable (g : Grammar)

/-- The symbol in front of which the dot of a state stands, if there is one. -/
def awaited (s : State) : Except ParseError (Option Symbol) :=
  if s.isComplete then .ok none
  else
    match s.production with
    | .start => .ok (g.symbol? g.start)
    | .rule id =>
      match g.rules[id]? with
      | none => .error .outOfRange
      | some rule => .ok rule.rhs[s.dot]?
    | .lexeme _ => .ok none

/-- The symbol that a complete state is a match of. The start production has none, since no state
waits for it. -/
def matched (s : State) : Except ParseError (Option Symbol) :=
  match s.production with
  | .start => .ok none
  | .rule id =>
    match g.rules[id]? with
    | none => .error .outOfRange
    | some rule => .ok (some (.nonterminal rule.head))
  | .lexeme symbol => .ok (some symbol)

/-- Inserts the state of a rule that is about to begin at position `k`. -/
def predictRule (k : Nat) (growth : Growth) (id : Nat) : Except ParseError Growth :=
  match g.rules[id]? with
  | none => .error .outOfRange
  | some rule => growth.insert (.predict (.rule id) rule.rhs.length k)

/-- Predicts every rule with the given head at position `k`. -/
def predict (head : String) (k : Nat) (growth : Growth) : Except ParseError Growth :=
  (g.rulesFor head).foldlM (g.predictRule k) growth

/-- Matches a terminal with the word at position `k`. A word that it does not accept leads nowhere.
The match belongs to the next column, so it is no change to the current one. -/
def scan (symbol : Symbol) (k : Nat) (growth : Growth) : Except ParseError Growth :=
  match growth.chart.tokens[k]? with
  | none => .error .outOfRange
  | some word =>
    if g.accepts symbol.name word then
      (growth.insert (.lexeme symbol k)).map fun grown => { grown with changed := growth.changed }
    else .ok growth

/-- Advances the state `parent` over the complete state `child`, a match of `symbol` that stops at
position `k`, provided that it waits for this symbol. -/
def advanceOver (symbol : Symbol) (child k : Nat) (growth : Growth) (parent : Nat) :
    Except ParseError Growth :=
  match growth.chart.states[parent]? with
  | none => .error .outOfRange
  | some s =>
    match g.awaited s with
    | .error e => .error e
    | .ok awaited =>
      if awaited = some symbol then growth.insert (s.advance k (.complete parent child))
      else .ok growth

/-- Advances every state that waits, where the complete state `child` began, for what it matched. -/
def complete (child : Nat) (s : State) (k : Nat) (growth : Growth) : Except ParseError Growth :=
  match growth.chart.columns[s.origin]? with
  | none => .error .outOfRange
  | some column =>
    match g.matched s with
    | .error e => .error e
    | .ok none => .ok growth
    | .ok (some symbol) => column.toList.foldlM (g.advanceOver symbol child k) growth

/-- Carries out what the state `id` of column `k` calls for. -/
def visit (k id : Nat) (growth : Growth) : Except ParseError Growth :=
  match growth.chart.states[id]? with
  | none => .error .outOfRange
  | some s =>
    if s.isComplete then
      g.complete id s k { growth with sawEmpty := growth.sawEmpty || s.origin = k }
    else
      match g.awaited s with
      | .error e => .error e
      | .ok none => .ok growth
      | .ok (some (.nonterminal name)) => g.predict name k growth
      | .ok (some (.terminal name)) =>
        if k < growth.chart.tokens.size then g.scan (.terminal name) k growth else .ok growth

end Grammar

/-- A parse that was given up. -/
structure Halt where
  /-- Why it was given up. -/
  error : ParseError
  /-- What there is to say about it. -/
  messages : List Message := []
deriving DecidableEq, Repr

/-- The message that a parse is given up. -/
def givingUp (amount : String) : Message where
  level := .debug
  content := "giving up after " ++ amount

namespace Limits

/-- Fails if a chart has more states than it may have. -/
def checkStates (limits : Limits) (c : Chart) : Except Halt Unit :=
  match limits.maxStates with
  | none => .ok ()
  | some limit =>
    if limit < c.size then
      .error { error := .stateBudget limit, messages := [givingUp (toString c.size ++ " states")] }
    else .ok ()

/-- Fails if more time has passed than may pass. -/
def checkDuration (limits : Limits) (elapsed : Duration) : Except Halt Unit :=
  match limits.maxDuration with
  | none => .ok ()
  | some limit =>
    if limit.nanoseconds < elapsed.nanoseconds then
      .error { error := .timeBudget limit, messages := [givingUp elapsed.text] }
    else .ok ()

/-- Fails if the limits are exceeded, the number of states being looked at before the clock. -/
def check (limits : Limits) (clock : Clock) (growth : Growth) : Except Halt Growth := do
  limits.checkStates growth.chart
  limits.checkDuration (clock growth.checks)
  .ok { growth with checks := growth.checks + 1 }

end Limits

namespace Grammar

variable (g : Grammar) (limits : Limits) (clock : Clock)

/-- Walks over column `k` from its entry number `i` to its end, which may move away meanwhile, and
visits every state on the way. The first argument bounds the number of visits. -/
def walk (k : Nat) : Nat → Nat → Growth → Except Halt Growth
  | 0, _, _ => .error { error := .outOfFuel }
  | fuel + 1, i, growth =>
    match growth.chart.columns[k]? with
    | none => .error { error := .outOfRange }
    | some column =>
      match column[i]? with
      | none => .ok growth
      | some id =>
        match g.visit k id growth with
        | .error e => .error { error := e }
        | .ok grown =>
          match limits.check clock grown with
          | .error halt => .error halt
          | .ok grown => walk k fuel (i + 1) grown

/-- The most states that a chart for `n` words can have: one start state in each column and a
second one in the first, a match of each terminal with each word, and a state for each place of
a dot and each pair of positions in order. -/
def stateBound (n : Nat) : Nat :=
  (n + 2) + n * g.terminalCount + g.dotCount * (n + 1) * (n + 2) / 2

/-- More walks over one column than can change a chart for `n` words, since each change adds a
state, or to a state a pair of states as a source. -/
def walkBound (n : Nat) : Nat :=
  (g.stateBound n + 1) * (g.stateBound n + 1) * (g.stateBound n + 1)

/-- Walks over column `k` until a walk is the last one needed. The first argument bounds the number
of walks and the second one the number of visits on each. -/
def closeColumn (k : Nat) : Nat → Nat → Growth → Except Halt Growth
  | 0, _, _ => .error { error := .outOfFuel }
  | walks + 1, visits, growth =>
    match g.walk limits clock k visits 0 { growth with changed := false, sawEmpty := false } with
    | .error halt => .error halt
    | .ok grown =>
      if grown.changed && grown.sawEmpty then closeColumn k walks visits grown else .ok grown

/-- Closes the columns of a chart for `n` words from left to right. -/
def closeColumns (n : Nat) (growth : Growth) : Except Halt Growth :=
  (List.range (n + 1)).foldlM
    (fun grown k => g.closeColumn limits clock k (g.walkBound n) (g.stateBound n + 1) grown) growth

end Grammar

end Earley
