/-! Values of the data interchange format and their text. Fields keep the order they are given in. -/

namespace Questionnaire

inductive Json where
  | null
  | boolean (value : Bool)
  /-- A number in the words of whoever wrote it. -/
  | number (text : String)
  | string (value : String)
  | array (items : List Json)
  | object (fields : List (String × Json))
deriving Inhabited

namespace Json

def natural (n : Nat) : Json := .number (toString n)

/-- A value with its tag. -/
def tagged (tag : String) (value : Json) : Json := .object [(tag, value)]

/-- The value, or null where there is none. -/
def optional {α : Type} (encode : α → Json) : Option α → Json
  | some value => encode value
  | none => .null

/-- A control character by its code point, in four hexadecimal digits. -/
def byCodePoint (c : Char) : String :=
  let digits := Nat.toDigits 16 c.toNat
  "\\u" ++ String.ofList (List.replicate (4 - digits.length) '0' ++ digits)

/-- What a string shows for one of its characters. -/
def shown (c : Char) : String :=
  if c = '"' then "\\\""
  else if c = '\\' then "\\\\"
  else if c = '\x08' then "\\b"
  else if c = '\x0c' then "\\f"
  else if c = '\n' then "\\n"
  else if c = '\r' then "\\r"
  else if c = '\t' then "\\t"
  else if c.toNat < 32 then byCodePoint c
  else c.toString

def quoted (text : String) : String := "\"" ++ String.join (text.toList.map shown) ++ "\""

/-- Two spaces for every level. -/
def margin (level : Nat) : String := String.ofList (List.replicate (2 * level) ' ')

/-- Parts between brackets, each on a line of its own; without parts the brackets stand alone. -/
def bracketed (opening closing : String) (level : Nat) (parts : List String) : String :=
  if parts.isEmpty then opening ++ closing
  else
    opening ++ "\n" ++ ",\n".intercalate (parts.map fun part => margin (level + 1) ++ part) ++ "\n" ++ margin level ++
      closing

mutual

/-- A value spread over lines, the first of them begun at a level of indentation. -/
def pretty (level : Nat) : Json → String
  | null => "null"
  | boolean value => if value then "true" else "false"
  | number text => text
  | string value => quoted value
  | array items => bracketed "[" "]" level (prettyItems (level + 1) items)
  | object fields => bracketed "\x7b" "\x7d" level (prettyFields (level + 1) fields)

def prettyItems (level : Nat) : List Json → List String
  | [] => []
  | item :: items => pretty level item :: prettyItems level items

def prettyFields (level : Nat) : List (String × Json) → List String
  | [] => []
  | (name, value) :: fields => (quoted name ++ ": " ++ pretty level value) :: prettyFields level fields

end

end Json

end Questionnaire
