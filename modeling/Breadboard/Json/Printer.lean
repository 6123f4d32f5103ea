import Breadboard.Json

/-!
# Writing JSON

`Json.quote` writes a string, `Json.pretty` a value over several lines: two
blanks per level, one item on a line, and empty arrays and objects closed at
once.
-/

namespace Breadboard.Json

/-- A character inside a string. The control characters without a short escape
are written by their code in four hexadecimal digits; everything outside ASCII
stands for itself. -/
def escape (c : Char) : String :=
  match c with
  | '"' => "\\\""
  | '\\' => "\\\\"
  | '\n' => "\\n"
  | '\r' => "\\r"
  | '\t' => "\\t"
  | '\x08' => "\\b"
  | '\x0c' => "\\f"
  | c =>
    if c.toNat < 32 then
      "\\u00" ++ String.ofList [Nat.digitChar (c.toNat / 16), Nat.digitChar (c.toNat % 16)]
    else String.singleton c

/-- A string with its quotes. -/
def quote (text : String) : String :=
  "\"" ++ String.join (text.toList.map escape) ++ "\""

/-- The blanks in front of a line. -/
def margin (indent : Nat) : String :=
  String.ofList (List.replicate indent ' ')

mutual

/-- A value over several lines. The first line carries no margin of its own. -/
def prettyAt (indent : Nat) : Json → String
  | null => "null"
  | bool value => if value then "true" else "false"
  | int value => toString value
  | real literal => literal
  | str value => quote value
  | arr [] => "[]"
  | arr (item :: items) =>
    "[\n" ++ prettyItems (indent + 2) (item :: items) ++ "\n" ++ margin indent ++ "]"
  | obj [] => "\x7b\x7d"
  | obj (field :: fields) =>
    "\x7b\n" ++ prettyFields (indent + 2) (field :: fields) ++ "\n" ++ margin indent ++ "\x7d"

/-- The items of an array, one on a line. -/
def prettyItems (indent : Nat) : List Json → String
  | [] => ""
  | [item] => margin indent ++ prettyAt indent item
  | item :: items =>
    margin indent ++ prettyAt indent item ++ ",\n" ++ prettyItems indent items

/-- The fields of an object, one on a line. -/
def prettyFields (indent : Nat) : List (String × Json) → String
  | [] => ""
  | [(key, value)] => margin indent ++ quote key ++ ": " ++ prettyAt indent value
  | (key, value) :: fields =>
    margin indent ++ quote key ++ ": " ++ prettyAt indent value ++ ",\n" ++
      prettyFields indent fields

end

/-- A value over several lines, from the left margin. -/
def pretty (value : Json) : String :=
  prettyAt 0 value

end Breadboard.Json
