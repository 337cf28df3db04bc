/-!
# Durations

Lengths of time, counted in nanoseconds, and their text in the largest unit that leaves a whole
part.
-/

namespace Earley

/-- A length of time. -/
structure Duration where
  /-- The length in nanoseconds. -/
  nanoseconds : Nat
deriving DecidableEq, Repr

namespace Duration

/-- The duration of some seconds and nanoseconds. -/
def ofParts (seconds nanoseconds : Nat) : Duration where
  nanoseconds := seconds * 1000000000 + nanoseconds

/-- The whole seconds of a duration. -/
def seconds (d : Duration) : Nat :=
  d.nanoseconds / 1000000000

/-- What a duration has beyond its whole seconds, in nanoseconds. -/
def subsecond (d : Duration) : Nat :=
  d.nanoseconds % 1000000000

/-- The digits of `part` as a decimal fraction with `places` places, without zeros at its end. A
fraction that is zero has no digits. -/
def fractionDigits (part places : Nat) : List Char :=
  let digits := (toString part).toList
  ((List.replicate (places - digits.length) '0' ++ digits).reverse.dropWhile (· == '0')).reverse

/-- A decimal number: a whole part, a fraction with at most `places` places, and a unit. -/
def decimal (whole part places : Nat) (unit : String) : String :=
  match fractionDigits part places with
  | [] => toString whole ++ unit
  | digits => toString whole ++ "." ++ String.ofList digits ++ unit

/-- The text of a duration, in seconds, milliseconds, microseconds or nanoseconds. -/
def text (d : Duration) : String :=
  if 0 < d.seconds then decimal d.seconds d.subsecond 9 "s"
  else if 1000000 ≤ d.subsecond then decimal (d.subsecond / 1000000) (d.subsecond % 1000000) 6 "ms"
  else if 1000 ≤ d.subsecond then decimal (d.subsecond / 1000) (d.subsecond % 1000) 3 "µs"
  else toString d.subsecond ++ "ns"

example : (ofParts 1 500000000).text = "1.5s" := rfl

example : (ofParts 0 20300).text = "20.3µs" := rfl

end Duration

end Earley
