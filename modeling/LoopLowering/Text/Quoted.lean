/-
Text between double quotes, written so that every character of it can be seen.
-/
import LoopLowering.Text.Hidden

namespace LoopLowering.Text

/-- One character inside quotes: the quote and the backslash get a backslash, four
control characters a letter, and what cannot be shown its code point. -/
def escapeChar (c : Char) : String :=
  match c with
  | '"' => "\\\""
  | '\\' => "\\\\"
  | '\n' => "\\n"
  | '\t' => "\\t"
  | '\r' => "\\r"
  | '\x00' => "\\0"
  | c =>
    if isHidden c then "\\u\x7b" ++ String.ofList (Nat.toDigits 16 c.toNat) ++ "\x7d"
    else c.toString

/-- The text in quotes. -/
def quoted (text : String) : String :=
  "\"" ++ String.join (text.toList.map escapeChar) ++ "\""

end LoopLowering.Text
