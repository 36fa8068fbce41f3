import Questionnaire.Text.Unprintable
import Questionnaire.Text.Combining

/-! Texts as they are shown in messages: between double quotes, on one line, and with every character
that a reader could not see on its own written out. -/

namespace Questionnaire.Text

/-- Lower-case hexadecimal digits, without zeros in front. -/
def hexDigits (n : Nat) : String := String.ofList (Nat.toDigits 16 n)

/-- A character by its code point. -/
def byCodePoint (c : Char) : String := "\\u\x7b" ++ hexDigits c.toNat ++ "\x7d"

/-- What a quoted text shows for one of its characters. -/
def shown (c : Char) : String :=
  if c = '"' then "\\\""
  else if c = '\\' then "\\\\"
  else if c = '\t' then "\\t"
  else if c = '\r' then "\\r"
  else if c = '\n' then "\\n"
  else if c = '\x00' then "\\0"
  else if isCombining c || isUnprintable c then byCodePoint c
  else c.toString

/-- A text between double quotes; apostrophes stay as they are. -/
def quoted (text : String) : String := "\"" ++ String.join (text.toList.map shown) ++ "\""

end Questionnaire.Text
