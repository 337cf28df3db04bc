import Earley.Symbol
import Earley.Text.Line
/-!
# Grammars

A grammar is a table of names, each a nonterminal or a terminal that accepts certain words,
together with a start name and a sequence of rules. A rule is known by its position in that
sequence, and the alternatives of a head keep the order of their declaration.
-/

namespace Earley

/-- A rule replaces its head by the symbols of its right-hand side, of which there may be none. -/
structure Rule where
  /-- The name of the nonterminal that the rule is for. -/
  head : String
  /-- The symbols that replace the head, from left to right. -/
  rhs : List Symbol
deriving DecidableEq, Repr

/-- The text of a rule: its head, an arrow, and the names of the right-hand side between blanks. -/
def Rule.text (rule : Rule) : String :=
  rule.head ++ " -> " ++ " ".intercalate (rule.rhs.map Symbol.name)

/-- What a name stands for. -/
inductive Category where
  /-- The name of a nonterminal. -/
  | nonterminal
  /-- The name of a terminal, with the test for the words it accepts. -/
  | terminal (accepts : String → Bool)

namespace Category

/-- The symbol that a name denotes under a category. -/
def symbol (name : String) : Category → Symbol
  | nonterminal => .nonterminal name
  | terminal _ => .terminal name

/-- Whether the category is that of terminals. -/
def isTerminal : Category → Bool
  | nonterminal => false
  | terminal _ => true

/-- Whether a word is accepted. Nonterminals accept no word by themselves. -/
def accepts : Category → String → Bool
  | nonterminal, _ => false
  | terminal accepts, word => accepts word

@[simp] theorem isTerminal_symbol (name : String) (c : Category) :
    (c.symbol name).isTerminal = c.isTerminal := by
  cases c <;> rfl

@[simp] theorem name_symbol (name : String) (c : Category) : (c.symbol name).name = name := by
  cases c <;> rfl

end Category

/-- A context-free grammar over words. -/
structure Grammar where
  /-- The name from which inputs are derived. -/
  start : String
  /-- The known names in the order of their first declaration. -/
  names : List (String × Category)
  /-- The rules in the order of their first declaration. -/
  rules : Array Rule

namespace Grammar

/-- The category of a name, if the grammar knows it. -/
def category? (g : Grammar) (name : String) : Option Category :=
  g.names.lookup name

/-- The symbol that a name denotes, if the grammar knows it. -/
def symbol? (g : Grammar) (name : String) : Option Symbol :=
  (g.category? name).map (Category.symbol name)

/-- Whether a name denotes a terminal. -/
def isTerminal (g : Grammar) (name : String) : Bool :=
  (g.category? name).any Category.isTerminal

/-- Whether a name denotes a terminal that accepts the word. -/
def accepts (g : Grammar) (name word : String) : Bool :=
  (g.category? name).any fun category => category.accepts word

/-- The positions of the rules with the given head, in increasing order. -/
def rulesFor (g : Grammar) (head : String) : List Nat :=
  (List.range g.rules.size).filter fun i => g.rules[i]?.any fun rule => rule.head = head

/-- The rules with the given head, in the order of their declaration. -/
def alternatives (g : Grammar) (head : String) : List Rule :=
  g.rules.toList.filter fun rule => rule.head = head

/-- The heads of the rules in the order of their first use. -/
def heads (g : Grammar) : List String :=
  (g.rules.toList.map Rule.head).eraseDups

/-- The text of a grammar names the start symbol on its first line. For each head then follow a
blank line and one line for each of its alternatives. -/
def text (g : Grammar) : String :=
  Text.closeLines <| ("Start: " ++ g.start) ::
    g.heads.flatMap fun head => "" :: (g.alternatives head).map Rule.text

/-- The number of names that denote terminals. -/
def terminalCount (g : Grammar) : Nat :=
  g.names.countP fun entry => entry.2.isTerminal

/-- The number of places for a dot in the rules: one before each symbol and one at the end. -/
def dotCount (g : Grammar) : Nat :=
  g.rules.toList.foldr (fun rule count => rule.rhs.length + 1 + count) 0

theorem mem_rulesFor {g : Grammar} {head : String} {i : Nat} :
    i ∈ g.rulesFor head ↔ ∃ rule, g.rules[i]? = some rule ∧ rule.head = head := by
  simp only [rulesFor, List.mem_filter, List.mem_range, Option.any_eq_true, decide_eq_true_eq]
  constructor
  · rintro ⟨_, h⟩
    exact h
  · rintro ⟨rule, h, hh⟩
    exact ⟨(Array.getElem?_eq_some_iff.1 h).1, rule, h, hh⟩

theorem pairwise_rulesFor (g : Grammar) (head : String) :
    (g.rulesFor head).Pairwise (· < ·) :=
  List.Pairwise.filter _ List.pairwise_lt_range

theorem accepts_eq_true_iff {g : Grammar} {name word : String} :
    g.accepts name word = true ↔
      ∃ test, g.category? name = some (.terminal test) ∧ test word = true := by
  simp only [accepts, Option.any_eq_true]
  constructor
  · rintro ⟨category, h, hw⟩
    cases category with
    | nonterminal => simp [Category.accepts] at hw
    | terminal test => exact ⟨test, h, hw⟩
  · rintro ⟨test, h, hw⟩
    exact ⟨_, h, hw⟩

end Grammar

end Earley
