/-!
# Symbols

Grammar symbols, told apart by kind and name. Which words a terminal accepts is recorded by the
grammar, so two symbols are equal exactly when they have the same kind and the same name.
-/

namespace Earley

/-- A symbol of a grammar. -/
inductive Symbol where
  /-- A symbol that rules expand. -/
  | nonterminal (name : String)
  /-- A symbol that stands for single words. -/
  | terminal (name : String)
deriving DecidableEq, Hashable, Repr

namespace Symbol

/-- The name of a symbol. -/
def name : Symbol → String
  | nonterminal name => name
  | terminal name => name

/-- Whether a symbol stands for single words. -/
def isTerminal : Symbol → Bool
  | nonterminal _ => false
  | terminal _ => true

/-- The text of a symbol shows its kind and its name. -/
def text : Symbol → String
  | nonterminal name => "NonTerm(" ++ name ++ ")"
  | terminal name => "Term(" ++ name ++ ")"

@[simp] theorem name_nonterminal (name : String) : (nonterminal name).name = name := rfl

@[simp] theorem name_terminal (name : String) : (terminal name).name = name := rfl

@[simp] theorem isTerminal_nonterminal (name : String) :
    (nonterminal name).isTerminal = false := rfl

@[simp] theorem isTerminal_terminal (name : String) : (terminal name).isTerminal = true := rfl

end Symbol

end Earley
