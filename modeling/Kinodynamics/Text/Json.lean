/-
# Writing JSON

A JSON value whose numbers are already spelled, and its text without blanks.

Key definitions: `JsonText`, `JsonText.render`.
-/
namespace Kinodynamics

/-- A JSON value to be written. -/
inductive JsonText where
  /-- A number or word as it stands. -/
  | raw (text : String)
  | string (text : String)
  | list (items : List JsonText)
  | object (fields : List (String × JsonText))

namespace JsonText

/-- The character within a string. -/
def escapeChar (c : Char) : String :=
  if c = '"' then "\\\""
  else if c = '\\' then "\\\\"
  else if c = '\n' then "\\n"
  else if c.toNat < 32 then
    "\\u00" ++ String.ofList [Nat.digitChar (c.toNat / 16), Nat.digitChar (c.toNat % 16)]
  else String.singleton c

/-- The text in quotes. -/
def quoted (s : String) : String := "\"" ++ String.join (s.toList.map escapeChar) ++ "\""

mutual

/-- The text of a value. -/
def render : JsonText → String
  | raw text => text
  | string text => quoted text
  | list items => "[" ++ ",".intercalate (renderItems items) ++ "]"
  | object fields => "\x7b" ++ ",".intercalate (renderFields fields) ++ "\x7d"

/-- The texts of the items of a list. -/
def renderItems : List JsonText → List String
  | [] => []
  | item :: items => render item :: renderItems items

/-- The texts of the fields of an object. -/
def renderFields : List (String × JsonText) → List String
  | [] => []
  | (name, value) :: fields => (quoted name ++ ":" ++ render value) :: renderFields fields

end

def null : JsonText := raw "null"

def bool (b : Bool) : JsonText := raw (if b then "true" else "false")

def nat (n : Nat) : JsonText := raw (toString n)

end JsonText

end Kinodynamics
