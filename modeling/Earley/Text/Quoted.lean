import Earley.Text.Blank
import Earley.Text.Marks
import Earley.Text.Unassigned
/-!
# Quoted text

A text between double quotes, written so that quotes, backslashes and characters that leave no
mark of their own can be told apart when read.
-/

namespace Earley.Text

/-- Letters that fill the place of a missing part of a Hangul syllable. -/
def fillerRanges : List (Nat × Nat) :=
  [(0x115F, 0x1160), (0x3164, 0x3164), (0xFFA0, 0xFFA0)]

/-- Whether a character leaves no mark of its own: blanks other than the space, code points without
a character, controls and format characters, fillers, and marks that attach to the character before
them. -/
def isInvisible (c : Char) : Bool :=
  if c.toNat < 0x7F then c.toNat < 0x20
  else isBlank c || isUnassigned c || isControl c || inRanges fillerRanges c || isMark c

/-- The code point in lower-case hexadecimal digits, without leading zeros. -/
def hexadecimal (n : Nat) : String :=
  String.ofList (Nat.toDigits 16 n)

/-- A character inside a quoted text: five have a short escape, invisible ones are written by
their code point, and every other character stands for itself. -/
def quoteChar (c : Char) : String :=
  match c with
  | '"' => "\\\""
  | '\\' => "\\\\"
  | '\t' => "\\t"
  | '\r' => "\\r"
  | '\n' => "\\n"
  | '\x00' => "\\0"
  | c => if isInvisible c then "\\u\x7b" ++ hexadecimal c.toNat ++ "\x7d" else c.toString

/-- The text between double quotes, with escapes where it needs them. -/
def quoted (text : String) : String :=
  "\"" ++ String.join (text.toList.map quoteChar) ++ "\""

example : quoted "e\u0301 and \uff76\uff9e" = "\"e\\u\x7b301\x7d and \uff76\uff9e\"" := by
  decide +kernel

example : quoted "say \"é\"\n" = "\"say \\\"é\\\"\\n\"" := by decide +kernel

end Earley.Text
