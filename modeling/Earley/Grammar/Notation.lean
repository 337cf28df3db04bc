import Earley.Grammar.Declaration
import Earley.Log
import Earley.Text.Blank
import Earley.Text.Line
/-!
# Grammars written as text

A grammar is written in two blocks. Each line of the lexicon, `Det -> the | a`, gives a terminal
some words to accept, and lines with the same head add up. Each line of the rule block,
`S -> NP VP`, gives one rule, and its names are nonterminals unless the lexicon has them. Lines
are trimmed, and blank ones are passed over. The lexicon is read first. A rule whose head the
lexicon has is passed over with a warning.

The lexicon is gathered in one pass over its lines, in which an index tells at which place the words
of a head are gathered (`Notation.Lexicon`). The builder is filled with its entries, and then rule
line by rule line, and it is the builder that is asked whether a name is a terminal.
-/

namespace Earley.Notation

/-- What is wrong with a line. -/
inductive LineFault where
  /-- The line has no arrow. -/
  | missingArrow
  /-- Nothing stands before the arrow. -/
  | emptyLeft
  /-- Nothing stands after the arrow. -/
  | emptyRight
  /-- Nothing stands between two bars of a lexicon line. -/
  | emptyAlternative
deriving DecidableEq, Repr

/-- The wording of a line fault. -/
def LineFault.reason : LineFault → String
  | missingArrow => "missing '->'"
  | emptyLeft => "empty left-hand side"
  | emptyRight => "empty right-hand side"
  | emptyAlternative => "empty lexicon alternative"

/-- The parts of a text before and after its first arrow, if it has one. -/
def splitArrow? : List Char → Option (List Char × List Char)
  | [] => none
  | '-' :: '>' :: rest => some ([], rest)
  | c :: rest => (splitArrow? rest).map fun parts => (c :: parts.1, parts.2)

/-- The trimmed sides of a line around its first arrow, or `none` for a blank line. -/
def splitLine (line : List Char) : Except LineFault (Option (List Char × List Char)) :=
  match Text.trim line with
  | [] => .ok none
  | text =>
    match splitArrow? text with
    | none => .error .missingArrow
    | some (left, right) =>
      match Text.trim left, Text.trim right with
      | [], _ => .error .emptyLeft
      | _, [] => .error .emptyRight
      | head, body => .ok (some (head, body))

/-- The lines of a text, counted from one. -/
def numbered (text : String) : List (List Char × Nat) :=
  (Text.lines text.toList).zipIdx 1

/-! ### Lexicons -/

/-- What was read of a lexicon. -/
structure Lexicon where
  /-- The heads in the order of their first use, with their words in the order of their lines. -/
  entries : Array (String × List String) := #[]
  /-- The place of each head among the entries. -/
  index : List (String × Nat) := []
deriving DecidableEq, Repr

namespace Lexicon

/-- The place of a head, which is the next one if the head is new. -/
def place (lexicon : Lexicon) (head : String) : Nat × Lexicon :=
  match lexicon.index.lookup head with
  | some position => (position, lexicon)
  | none =>
    (lexicon.entries.size,
      { entries := lexicon.entries.push (head, [])
        index := (head, lexicon.entries.size) :: lexicon.index })

/-- Puts a word behind those of the entry at a place. -/
def addWord (lexicon : Lexicon) (position : Nat) (word : String) : Lexicon :=
  { lexicon with
    entries := lexicon.entries.modify position fun entry => (entry.1, entry.2 ++ [word]) }

/-- Puts words behind those of the entry at a place, up to one that is empty. -/
def addWords (position : Nat) : List (List Char) → Lexicon → Except LineFault Lexicon
  | [], lexicon => .ok lexicon
  | word :: rest, lexicon =>
    if word.isEmpty then .error .emptyAlternative
    else addWords position rest (lexicon.addWord position (String.ofList word))

/-- Reads one numbered line. -/
def readLine (lexicon : Lexicon) (line : List Char × Nat) : Except GrammarError Lexicon :=
  match splitLine line.1 with
  | .error fault => .error (.format line.2 fault.reason)
  | .ok none => .ok lexicon
  | .ok (some (head, body)) =>
    let (position, placed) := lexicon.place (String.ofList head)
    match placed.addWords position ((body.splitOn '|').map Text.trim) with
    | .error fault => .error (.format line.2 fault.reason)
    | .ok lexicon => .ok lexicon

/-- Reads a lexicon line by line, up to the first fault. -/
def read (text : String) : Except GrammarError Lexicon :=
  (numbered text).foldlM readLine {}

/-- The builder with a terminal for each entry. -/
def builder (lexicon : Lexicon) : Builder :=
  lexicon.entries.toList.foldl (fun b entry => b.declare (.lexemeIfNew entry.1 entry.2)) {}

end Lexicon

/-! ### Rules -/

/-- Declares the rule of a line. Its names become nonterminals, unless they are known. -/
def addRule (b : Builder) (head : String) (names : List String) : Builder :=
  let named := names.foldl
    (fun b name => if b.isTerminal name then b else b.declare (.nonterminalIfNew name))
    (b.declare (.nonterminalIfNew head))
  named.declare (.addRuleIfNew head names)

/-- The warning that a rule line was passed over. -/
def shadowWarning (line : Nat) (head : String) : Message where
  level := .warn
  content := "line " ++ toString line ++ ": skipping rule for lexicon symbol '" ++ head ++ "'"

/-- The outcome of reading a grammar, with the warnings given on the way. -/
structure Reading where
  /-- The grammar, or the first fault. -/
  grammar : Except GrammarError Grammar
  /-- The warnings in the order of their lines. -/
  warnings : List Message

/-- Reads the numbered lines of a rule block into a builder, up to the first fault, and finishes the
grammar. A line whose head is a terminal of the builder gives a warning. -/
def readRules (start : String) (b : Builder) : List (List Char × Nat) → Reading
  | [] => { grammar := b.build start, warnings := [] }
  | line :: rest =>
    match splitLine line.1 with
    | .error fault => { grammar := .error (.format line.2 fault.reason), warnings := [] }
    | .ok none => readRules start b rest
    | .ok (some (head, body)) =>
      if b.isTerminal (String.ofList head) then
        let reading := readRules start b rest
        { reading with warnings := shadowWarning line.2 (String.ofList head) :: reading.warnings }
      else
        readRules start
          (addRule b (String.ofList head) ((Text.words body).map String.ofList)) rest

/-- Reads a grammar from the texts of its two blocks. -/
def read (rules lexicon start : String) : Reading :=
  match Lexicon.read lexicon with
  | .error fault => { grammar := .error fault, warnings := [] }
  | .ok given => readRules start given.builder (numbered rules)

/-- Reads a grammar from the contents of two files, of which either may be unreadable. The file of
the rules is looked at first. -/
def readFiles (rules lexicon : Except FileFault String) (start : String) : Reading :=
  match rules, lexicon with
  | .error fault, _ => { grammar := .error (.unreadable fault), warnings := [] }
  | .ok _, .error fault => { grammar := .error (.unreadable fault), warnings := [] }
  | .ok rules, .ok lexicon => read rules lexicon start

end Earley.Notation
