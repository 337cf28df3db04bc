/-!
# Log messages

What the library reports besides its results: messages with a level of severity. Functions that
have something to report return it as data, and whoever calls them decides what is shown.
-/

namespace Earley

/-- How severe a message is, from the most to the least severe. -/
inductive Level where
  /-- Something failed. -/
  | error
  /-- Something was passed over. -/
  | warn
  /-- A step of general interest. -/
  | info
  /-- Details for finding faults. -/
  | debug
  /-- Every single step. -/
  | trace
deriving DecidableEq, Repr

/-- The rank of a level, zero for the most severe. -/
def Level.rank : Level → Nat
  | error => 0
  | warn => 1
  | info => 2
  | debug => 3
  | trace => 4

/-- The name of a level in capitals. -/
def Level.text : Level → String
  | error => "ERROR"
  | warn => "WARN"
  | info => "INFO"
  | debug => "DEBUG"
  | trace => "TRACE"

/-- A message to whoever runs the program. -/
structure Message where
  /-- How severe the message is. -/
  level : Level
  /-- What the message says. -/
  content : String
deriving DecidableEq, Repr

/-- A message with its level in front. -/
def Message.text (m : Message) : String :=
  m.level.text ++ " " ++ m.content

/-- The messages that are at least as severe as a level. -/
def Message.upTo (level : Level) (messages : List Message) : List Message :=
  messages.filter fun m => m.level.rank ≤ level.rank

end Earley
