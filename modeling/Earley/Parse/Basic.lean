import Earley.Chart.Description
import Earley.Parse.Invariant
/-!
# Parses

A parse is the finished chart of an input together with its roots: the complete states that match
the start symbol with all of the input. An input is derived by the grammar exactly when its parse
has a root.
-/

namespace Earley

/-- The outcome of parsing an input. -/
structure Parse where
  /-- The grammar that was used. -/
  grammar : Grammar
  /-- The finished chart. -/
  chart : Chart
  /-- The states that match the start symbol with the whole input. -/
  roots : List Nat
  /-- The completions in the chart lead back one place at a time. -/
  layered : chart.Layered

/-- Whether the grammar derives the input. -/
def Parse.accepted (p : Parse) : Bool :=
  !p.roots.isEmpty

namespace Grammar

variable (g : Grammar)

/-- Whether a state is a complete match of the start symbol that begins at the first word. -/
def isRoot (c : Chart) (id : Nat) : Except ParseError Bool :=
  match c.states[id]? with
  | none => .error .outOfRange
  | some s =>
    if s.origin = 0 ∧ s.isComplete then
      (g.matched s).map fun symbol => decide (symbol.map Symbol.name = some g.start)
    else .ok false

/-- The roots among the states that stop at the end of the input. -/
def roots (c : Chart) : Except ParseError (List Nat) :=
  match c.columns[c.tokens.size]? with
  | none => .error .outOfRange
  | some column => column.toList.filterM (g.isRoot c)

/-- The chart of some words with all of its columns closed. -/
def closedChart (limits : Limits) (clock : Clock) (tokens : List String) : Except Halt Growth :=
  match Growth.seed tokens with
  | .error e => .error { error := e }
  | .ok growth => g.closeColumns limits clock tokens.length growth

/-- A finished chart is one that a parse may come to, and its columns are closed. -/
theorem closed_of_closedChart {g : Grammar} {limits : Limits} {clock : Clock}
    {tokens : List String} {grown : Growth} (h : g.closedChart limits clock tokens = .ok grown) :
    g.Reachable tokens grown.chart ∧ ∀ k ≤ tokens.length, g.Closed grown.chart k := by
  unfold closedChart at h
  split at h
  next => cases h
  next growth hseed => exact closed_of_closeColumns ⟨growth, hseed, .refl⟩ h

theorem layered_of_closedChart {g : Grammar} {limits : Limits} {clock : Clock}
    {tokens : List String} {grown : Growth} (h : g.closedChart limits clock tokens = .ok grown) :
    grown.chart.Layered :=
  (closed_of_closedChart h).1.layered

/-- The parse that ends with a chart, unless the chart was given up. -/
def parseOfChart (closed : Except Halt Growth)
    (h : ∀ grown, closed = .ok grown → grown.chart.Layered) : Except Halt Parse :=
  match closed, h with
  | .error halt, _ => .error halt
  | .ok grown, h =>
    match g.roots grown.chart with
    | .error e => .error { error := e }
    | .ok roots =>
      .ok { grammar := g, chart := grown.chart, roots := roots, layered := h grown rfl }

/-- Parses some words within limits. The clock is looked at only if the limits set a duration. -/
def parse (limits : Limits) (clock : Clock) (tokens : List String) : Except Halt Parse :=
  g.parseOfChart (g.closedChart limits clock tokens) fun _ => layered_of_closedChart

theorem parseOfChart_eq_ok_iff {g : Grammar} {closed : Except Halt Growth}
    {h : ∀ grown, closed = .ok grown → grown.chart.Layered} {p : Parse} :
    g.parseOfChart closed h = .ok p ↔
      ∃ grown, closed = .ok grown ∧ g.roots grown.chart = .ok p.roots ∧
        p.grammar = g ∧ p.chart = grown.chart := by
  cases closed with
  | error halt => simp [parseOfChart]
  | ok grown =>
    simp only [parseOfChart, Except.ok.injEq, exists_eq_left']
    cases hroots : g.roots grown.chart with
    | error e => simp
    | ok roots =>
      obtain ⟨grammar, chart, roots', layered⟩ := p
      simp only [Except.ok.injEq, Parse.mk.injEq]
      constructor
      · rintro ⟨rfl, rfl, rfl⟩
        exact ⟨rfl, rfl, rfl⟩
      · rintro ⟨rfl, rfl, rfl⟩
        exact ⟨rfl, rfl, rfl⟩

/-- A parse succeeds with the closed chart of the words and its roots. -/
theorem parse_eq_ok_iff {g : Grammar} {limits : Limits} {clock : Clock} {tokens : List String}
    {p : Parse} :
    g.parse limits clock tokens = .ok p ↔
      ∃ grown, g.closedChart limits clock tokens = .ok grown ∧
        g.roots grown.chart = .ok p.roots ∧ p.grammar = g ∧ p.chart = grown.chart :=
  parseOfChart_eq_ok_iff

end Grammar

namespace Parse

/-- A message on the progress of a parse. -/
def progress (content : String) : Message where
  level := .debug
  content := content

/-- The descriptions of the states of a column under the number of the column. -/
def columnMessages (p : Parse) (column : Array Nat × Nat) : List Message :=
  progress ("=== Column " ++ toString column.2 ++ " ===") ::
    (column.1.toList.filterMap (p.chart.describe? p.grammar)).map progress

/-- What there is to say about a parse: its states, column by column, and their numbers. -/
def messages (p : Parse) : List Message :=
  p.chart.columns.toList.zipIdx.flatMap p.columnMessages ++
    [progress ("parsed " ++ toString p.chart.tokens.size ++ " tokens into " ++
      toString p.chart.size ++ " states, " ++ toString p.roots.length ++ " accepting")]

end Parse

end Earley
