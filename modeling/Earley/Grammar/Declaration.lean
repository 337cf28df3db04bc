import Earley.Grammar.Basic
import Earley.Grammar.Error
/-!
# Building grammars from declarations

A grammar is built by declaring names and rules one after the other. A declaration that cannot be
carried out changes nothing, and the first such failure is the outcome of the whole construction.
Each kind of declaration comes in a strict form, which fails when it repeats an earlier one, and
in a form that is skipped then. Lexemes are the exception: both of their forms are skipped.
-/

namespace Earley

/-- What becomes of a declaration that repeats an earlier one. -/
inductive OnRepeat where
  /-- It fails. -/
  | fail
  /-- It is skipped. -/
  | skip
deriving DecidableEq, Repr

/-- One step in the construction of a grammar. -/
inductive Declaration where
  /-- Introduces a name. -/
  | name (name : String) (category : Category) (onRepeat : OnRepeat)
  /-- Adds a rule, whose symbols are given by name. -/
  | rule (head : String) (rhs : List String) (onRepeat : OnRepeat)

namespace Declaration

/-- Introduces a nonterminal. -/
def nonterminal (name : String) : Declaration :=
  .name name .nonterminal .fail

/-- Introduces a nonterminal unless its name is known. -/
def nonterminalIfNew (name : String) : Declaration :=
  .name name .nonterminal .skip

/-- Introduces a terminal that accepts the words passing a test. -/
def terminal (name : String) (accepts : String → Bool) : Declaration :=
  .name name (.terminal accepts) .fail

/-- Introduces a terminal that accepts the words passing a test, unless its name is known. -/
def terminalIfNew (name : String) (accepts : String → Bool) : Declaration :=
  .name name (.terminal accepts) .skip

/-- Introduces a terminal that accepts exactly the listed words, unless its name is known. -/
def lexemeIfNew (name : String) (words : List String) : Declaration :=
  .terminalIfNew name words.contains

/-- Introduces a terminal that accepts exactly the listed words. A name that is known keeps its
first meaning, and the repetition is no failure. -/
def lexeme (name : String) (words : List String) : Declaration :=
  .lexemeIfNew name words

/-- Adds a rule. -/
def addRule (head : String) (rhs : List String) : Declaration :=
  .rule head rhs .fail

/-- Adds a rule unless the grammar has it. -/
def addRuleIfNew (head : String) (rhs : List String) : Declaration :=
  .rule head rhs .skip

end Declaration

/-- A grammar under construction. -/
structure Builder where
  /-- The names introduced so far, oldest first. -/
  names : List (String × Category) := []
  /-- The rules added so far, oldest first. -/
  rules : Array Rule := #[]
  /-- The first failure, if any. -/
  failure : Option GrammarError := none

namespace Builder

/-- The category of a name, if it was introduced. -/
def category? (b : Builder) (name : String) : Option Category :=
  b.names.lookup name

/-- The symbol that a name denotes, if it was introduced. -/
def symbol? (b : Builder) (name : String) : Option Symbol :=
  (b.category? name).map (Category.symbol name)

/-- Whether a name was introduced as a terminal. -/
def isTerminal (b : Builder) (name : String) : Bool :=
  (b.category? name).any Category.isTerminal

/-- The symbols of a right-hand side. Fails on the leftmost name that was not introduced. -/
def resolve (b : Builder) : List String → Except GrammarError (List Symbol)
  | [] => .ok []
  | name :: rest =>
    match b.symbol? name with
    | none => .error (.missingSymbol name)
    | some symbol => (b.resolve rest).map (symbol :: ·)

/-- The rule that a head and a right-hand side denote. The right-hand side is looked at first. -/
def resolveRule (b : Builder) (head : String) (rhs : List String) : Except GrammarError Rule :=
  match b.resolve rhs with
  | .error failure => .error failure
  | .ok symbols =>
    match b.category? head with
    | none => .error (.missingSymbol head)
    | some (.terminal _) => .error (.terminalHead head)
    | some .nonterminal => .ok { head := head, rhs := symbols }

/-- The effect of a declaration on the names and rules, or the reason why it has none. -/
def apply (b : Builder) : Declaration → Except GrammarError Builder
  | .name name category onRepeat =>
    if (b.category? name).isNone then
      .ok { b with names := b.names ++ [(name, category)] }
    else
      match onRepeat with
      | .fail => .error (.duplicateSymbol name)
      | .skip => .ok b
  | .rule head rhs onRepeat =>
    match b.resolveRule head rhs with
    | .error failure => .error failure
    | .ok rule =>
      if rule ∈ b.rules then
        match onRepeat with
        | .fail => .error (.duplicateRule rule.text)
        | .skip => .ok b
      else
        .ok { b with rules := b.rules.push rule }

/-- Carries out a declaration. A failing one changes nothing but the record of the first failure. -/
def declare (b : Builder) (d : Declaration) : Builder :=
  match b.apply d with
  | .ok b' => b'
  | .error failure => { b with failure := b.failure <|> some failure }

/-- Carries out declarations from left to right. -/
def declareAll (b : Builder) (ds : List Declaration) : Builder :=
  ds.foldl declare b

theorem declareAll_append (b : Builder) (ds ds' : List Declaration) :
    b.declareAll (ds ++ ds') = (b.declareAll ds).declareAll ds' :=
  List.foldl_append

/-- The finished grammar. An unknown start name counts as a failure after all others. -/
def build (b : Builder) (start : String) : Except GrammarError Grammar :=
  match b.failure with
  | some failure => .error failure
  | none =>
    if (b.category? start).isNone then
      .error (.missingSymbol start)
    else
      .ok { start := start, names := b.names, rules := b.rules }

end Builder

/-- The grammar described by a list of declarations, with the given start name. -/
def Grammar.ofDeclarations (ds : List Declaration) (start : String) :
    Except GrammarError Grammar :=
  (({} : Builder).declareAll ds).build start

/-- An outcome that passes a test has a value that does. -/
theorem exists_of_any {ε β : Type _} {outcome : Except ε β} {test : β → Bool}
    (h : outcome.toOption.any test = true) : ∃ value, outcome = .ok value ∧ test value = true := by
  cases outcome with
  | error failure => cases h
  | ok value => exact ⟨value, rfl, h⟩

/-- An outcome that is not a failure is a grammar. -/
theorem Grammar.exists_of_isSome {outcome : Except GrammarError Grammar}
    (h : outcome.toOption.isSome = true) : ∃ g, outcome = .ok g := by
  cases outcome with
  | error failure => cases h
  | ok g => exact ⟨g, rfl⟩

/-- Declarations of which none fails describe a grammar. -/
theorem Grammar.exists_ofDeclarations {ds : List Declaration} {start : String}
    (h : (ofDeclarations ds start).toOption.isSome = true) :
    ∃ g, ofDeclarations ds start = .ok g :=
  exists_of_isSome h

end Earley
