import Earley.Proofs.CommandLine.Sentences
/-!
# Runs that fail

A run fails before it prints anything if its arguments make no sense, or else if a file cannot be
read, or else if the grammar in the files is faulty (`CommandLine.Fails`). It then prints nothing
but the reason. What the arguments ask for is said by the way in which they fall into words, start
symbols and a rest that makes no sense (`exists_choices`); that the program scans them one by one
does not show. Any other run prints the grammar first. After that nothing but its editor can make it
fail (`CommandLine.Breaks`), and it ends well otherwise, whatever becomes of the sentences
(`CommandLine.run_fails_or_ends`).
-/

namespace Earley.CommandLine

/-! ### What the arguments ask for -/

/-- What one argument asks for, or a start option together with the argument after it. -/
inductive Choice where
  /-- An argument that is not reserved is a word of the sentence. -/
  | word (arg : String) (plain : arg ∉ reserved)
  /-- The argument after a start option, whatever it is, is a start symbol. -/
  | start (name : String)

namespace Choice

/-- The arguments that make a choice. -/
def arguments : Choice → List String
  | .word arg _ => [arg]
  | .start name => ["--start", name]

/-- The word that is chosen. -/
def word? : Choice → Option String
  | .word arg _ => some arg
  | .start _ => none

/-- The start symbol that is chosen. -/
def start? : Choice → Option String
  | .word _ _ => none
  | .start name => some name

end Choice

/-- The arguments that make some choices, one after the other. -/
def spelled (choices : List Choice) : List String :=
  choices.flatMap Choice.arguments

/-- What some choices make of an invocation: their words are added to it, and the last start symbol
counts. -/
def Invocation.choosing (invocation : Invocation) (choices : List Choice) : Invocation :=
  { invocation with
    start := (choices.filterMap Choice.start?).getLastD invocation.start
    words := invocation.words ++ choices.filterMap Choice.word? }

/-- Arguments at which the program stops to say how it is to be called. -/
inductive Stops : List String → Prop
  /-- It is asked for help. -/
  | help {rest : List String} : Stops ("-h" :: rest)
  /-- It is asked for help in full. -/
  | longHelp {rest : List String} : Stops ("--help" :: rest)
  /-- No start symbol follows the option for it. -/
  | noStart : Stops ["--start"]

/-- The arguments make sense and ask for an invocation. -/
inductive Asks : List String → Invocation → Prop
  /-- Two file names are followed by choices. -/
  | of_choices (rules lexicon : String) (choices : List Choice) :
    Asks (rules :: lexicon :: spelled choices)
      (Invocation.choosing { rules := rules, lexicon := lexicon } choices)

/-- The arguments make no sense, or ask for help. -/
inductive Senseless : List String → Prop
  /-- A file name is missing. -/
  | short {args : List String} (h : args.length < 2) : Senseless args
  /-- The program stops at an argument after some choices. -/
  | stops (rules lexicon : String) (choices : List Choice) {rest : List String} (h : Stops rest) :
    Senseless (rules :: lexicon :: (spelled choices ++ rest))

/-- The reasons for which a run fails, each with its wording. -/
inductive Fails (contents : String → Except FileFault String) (args : List String) :
    String → Prop
  /-- The arguments make no sense. -/
  | arguments (h : Senseless args) : Fails contents args usage
  /-- The file of the rules cannot be read. -/
  | rules {invocation : Invocation} {fault : FileFault} (hasks : Asks args invocation)
    (h : contents invocation.rules = .error fault) :
    Fails contents args (GrammarError.unreadable fault).message
  /-- The file of the rules can be read, but not that of the lexicon. -/
  | lexicon {invocation : Invocation} {rules : String} {fault : FileFault}
    (hasks : Asks args invocation) (hrules : contents invocation.rules = .ok rules)
    (h : contents invocation.lexicon = .error fault) :
    Fails contents args (GrammarError.unreadable fault).message
  /-- Both files can be read, and there is no grammar in them. -/
  | grammar {invocation : Invocation} {rules lexicon : String} {failure : GrammarError}
    (hasks : Asks args invocation) (hrules : contents invocation.rules = .ok rules)
    (hlexicon : contents invocation.lexicon = .ok lexicon)
    (h : (Notation.read rules lexicon invocation.start).grammar = .error failure) :
    Fails contents args failure.message

/-! ### Scanning the arguments -/

variable {tools : Tools} {args : List String} {contents : String → Except FileFault String}

/-- The error that comes after the lines, if it is an error that ends the replies. -/
def Replies.error? : Replies → Option String
  | .line _ rest => rest.error?
  | .failed error => some error
  | .endOfInput | .interrupted => none

/-- How a program ends whose last replies these are. -/
def Replies.outcome (replies : Replies) : Output :=
  match replies.error? with
  | none => success
  | some error => failure ("Readline err: " ++ error)

end Earley.CommandLine
