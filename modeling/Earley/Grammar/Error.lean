import Earley.Text.Quoted
/-!
# Grammar errors

Why a grammar could not be read or built, and how each reason is worded.
-/

namespace Earley

/-- Why a file could not be read as text. -/
inductive FileFault where
  /-- There is no file of this name. -/
  | notFound
  /-- The name is that of a directory. -/
  | directory
  /-- The bytes of the file are not a text. -/
  | notText
  /-- Any other reason, with its wording. -/
  | other (reason : String)
deriving DecidableEq, Repr

/-- The wording of a file fault. -/
def FileFault.message : FileFault → String
  | notFound => "No such file or directory (os error 2)"
  | directory => "Is a directory (os error 21)"
  | notText => "stream did not contain valid UTF-8"
  | other reason => reason

/-- Why a grammar could not be read or built. -/
inductive GrammarError where
  /-- A line does not follow the notation. Lines are counted from one. -/
  | format (line : Nat) (reason : String)
  /-- A name was declared a second time. -/
  | duplicateSymbol (name : String)
  /-- A rule, given by its text, was declared a second time. -/
  | duplicateRule (rule : String)
  /-- A name was used before its declaration. -/
  | missingSymbol (name : String)
  /-- A rule was declared for a terminal. -/
  | terminalHead (name : String)
  /-- A file could not be read. -/
  | unreadable (fault : FileFault)
deriving DecidableEq, Repr

/-- The wording of a grammar error. -/
def GrammarError.message : GrammarError → String
  | format line reason => "Grammar format error at line " ++ toString line ++ ": " ++ reason
  | duplicateSymbol name => "Duplicate Symbol: " ++ name
  | duplicateRule rule => "Duplicate Rule: " ++ rule
  | missingSymbol name => "Missing Symbol: " ++ name
  | terminalHead name => "Rule head must be NonTerm: " ++ name
  | unreadable fault => "Failed to read grammar: " ++ fault.message

/-- The explicit form of a grammar error, which names its kind and quotes every text in it. -/
def GrammarError.explicit : GrammarError → String
  | format line reason =>
    "Format \x7b line: " ++ toString line ++ ", reason: " ++ Text.quoted reason ++ " \x7d"
  | duplicateSymbol name => "DuplicateSymbol(" ++ Text.quoted name ++ ")"
  | duplicateRule rule => "DuplicateRule(" ++ Text.quoted rule ++ ")"
  | missingSymbol name => "MissingSymbol(" ++ Text.quoted name ++ ")"
  | terminalHead name => "TerminalHead(" ++ Text.quoted name ++ ")"
  | unreadable fault => "Io(" ++ Text.quoted fault.message ++ ")"

end Earley
