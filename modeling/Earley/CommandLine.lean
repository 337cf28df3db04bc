import Earley.Grammar.Notation
import Earley.Text.Quoted
import Earley.Tree.Bracketed
import Earley.Tree.Nested
import Earley.Tree.Reading
/-!
# The command line

The program is given the names of a rule file and of a lexicon file, possibly a start symbol, and
possibly the words of a sentence. It prints the grammar and then the trees of the sentence, or
without one the trees of every sentence that a line editor reads from its standard input, one
sentence a line. It fails if the arguments make no sense or the grammar cannot be read, and after
the grammar was printed, if the editor fails.

The editor and the printer of JSON values are not part of the program. They are given to it as
`Tools`, and nothing is assumed of what they do: a run is defined for all of them.
-/

namespace Earley.CommandLine

/-- How the program is to be called. -/
def usage : String :=
  "usage: copse <rules> <lexicon> [--start S] [words...]"

/-- What the arguments ask for. -/
structure Invocation where
  /-- The name of the file with the rules. -/
  rules : String
  /-- The name of the file with the lexicon. -/
  lexicon : String
  /-- The name of the start symbol. -/
  start : String := "S"
  /-- The words of the sentence, none if sentences are to be read from standard input. -/
  words : List String := []
deriving DecidableEq, Repr

/-- Reads the arguments after the two file names. A start symbol is whatever argument follows its
option, and the last one counts. -/
def readOptions : List String → Invocation → Option Invocation
  | [], invocation => some invocation
  | "--start" :: start :: rest, invocation => readOptions rest { invocation with start := start }
  | arg :: rest, invocation =>
    if arg = "--start" ∨ arg = "-h" ∨ arg = "--help" then none
    else readOptions rest { invocation with words := invocation.words ++ [arg] }

/-- Reads the arguments, or gives `none` if they make no sense or ask for help. -/
def readArguments : List String → Option Invocation
  | rules :: lexicon :: rest => readOptions rest { rules := rules, lexicon := lexicon }
  | _ => none

/-- The grammar that an invocation asks for, where `contents` looks up a file by name. -/
def Invocation.grammar (invocation : Invocation) (contents : String → Except FileFault String) :
    Except GrammarError Grammar :=
  (Notation.readFiles (contents invocation.rules) (contents invocation.lexicon)
    invocation.start).grammar

/-! ### What the program uses -/

/-- What a line editor replies, call by call. Nothing but a line has another call after it. -/
inductive Replies where
  /-- A line, and the replies to the calls after it. -/
  | line (text : String) (rest : Replies)
  /-- The end of the input. -/
  | endOfInput
  /-- The user wants the program to stop. -/
  | interrupted
  /-- Any other error, with its explicit text. -/
  | failed (error : String)
deriving DecidableEq, Repr

/-- What the program leaves to others. -/
structure Tools where
  /-- Sets up a line editor over the bytes of standard input and gives what it is going to reply, or
  else the error for which it cannot be set up. It is told which lines to remember, but these are
  lines of its own, so what it replies depends on its input alone. -/
  editor : ByteArray → Except String Replies
  /-- The text of a JSON value, spread over several lines, or an error. -/
  printer : Json → Except String String

/-! ### What the program prints -/

/-- What the program leaves behind. -/
structure Output where
  /-- The exit code. -/
  code : UInt8
  /-- What was written to standard output. -/
  stdout : String
  /-- What was written to standard error. -/
  stderr : String
deriving DecidableEq, Repr

/-- The outcome of a program that ends well and has nothing more to print. -/
def success : Output where
  code := 0
  stdout := ""
  stderr := ""

/-- The outcome of a program that fails with a message and has nothing more to print. -/
def failure (message : String) : Output where
  code := 1
  stdout := ""
  stderr := "Error: " ++ Text.quoted message ++ "\n"

/-- The outcome of a program that first prints a text. -/
def Output.after (output : Output) (text : String) : Output :=
  { output with stdout := text ++ output.stdout }

/-- The lines printed for a tree. -/
def treeLines (tools : Tools) (t : Tree) : List String :=
  match tools.printer t.nested with
  | .ok nested => [t.bracketed, nested]
  | .error e => [t.bracketed, "Json err: " ++ e]

/-- The lines printed for a sentence. -/
def sentenceLines (tools : Tools) (g : Grammar) (words : List String) : List String :=
  match g.trees {} (fun _ => ⟨0⟩) words with
  | .error e => ["Parse err: " ++ e.message]
  | .ok [] => ["No parse"]
  | .ok trees => trees.flatMap (treeLines tools) ++ [toString trees.length ++ " tree(s)"]

/-- What is printed for a sentence. -/
def report (tools : Tools) (g : Grammar) (words : List String) : String :=
  Text.closeLines (sentenceLines tools g words)

/-- The words on a line. -/
def lineWords (line : String) : List String :=
  (Text.words line.toList).map String.ofList

/-- Parses the words of each line that the editor gives, until there is none left, or the editor
fails. A line without words is passed over. -/
def converse (tools : Tools) (g : Grammar) : Replies → Output
  | .interrupted | .endOfInput => success
  | .failed error => failure ("Readline err: " ++ error)
  | .line text rest =>
    if (lineWords text).isEmpty then converse tools g rest
    else (converse tools g rest).after (report tools g (lineWords text))

/-- What is left to do once the grammar was printed. -/
def Invocation.follow (invocation : Invocation) (tools : Tools) (g : Grammar)
    (stdin : ByteArray) : Output :=
  if invocation.words.isEmpty then
    match tools.editor stdin with
    | .error e => failure e
    | .ok replies => converse tools g replies
  else success.after (report tools g invocation.words)

/-- A run of the program with some arguments, files and standard input. -/
def run (tools : Tools) (args : List String) (contents : String → Except FileFault String)
    (stdin : ByteArray) : Output :=
  match readArguments args with
  | none => failure usage
  | some invocation =>
    match invocation.grammar contents with
    | .error e => failure e.message
    | .ok g => (invocation.follow tools g stdin).after (g.text ++ "\n")

end Earley.CommandLine
