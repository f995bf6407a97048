import TopicPlugin.Text.Decimal

/-!
# JSON documents

JSON values with whole numbers, and their text laid out over lines: two spaces for each level, one
item or member to a line, one space after the colon of a member, and nothing inside an empty array
or object.

In a string the quotation mark, the backslash and the characters below U+0020 are escaped, five of
these by a letter and the others by their code in lower-case hexadecimal. Every other character
stands for itself.
-/

namespace TopicPlugin

inductive Json where
  | string (text : String)
  | number (value : Int)
  | array (items : List Json)
  | object (members : List (String × Json))
  deriving Repr

namespace Json

/-- How a character is written inside a string. -/
def escape (c : Char) : List Char :=
  if c = '\"' then ['\\', '\"']
  else if c = '\\' then ['\\', '\\']
  else if c = '\x08' then ['\\', 'b']
  else if c = '\x0c' then ['\\', 'f']
  else if c = '\n' then ['\\', 'n']
  else if c = '\r' then ['\\', 'r']
  else if c = '\t' then ['\\', 't']
  else if c.toNat < 0x20 then
    ['\\', 'u', '0', '0', Nat.digitChar (c.toNat / 16), Nat.digitChar (c.toNat % 16)]
  else [c]

def quoted (text : String) : List Char :=
  '\"' :: text.toList.flatMap escape ++ ['\"']

/-- The start of a new line at a level. -/
def newLine (level : Nat) : List Char := '\n' :: List.replicate (2 * level) ' '

mutual

def chars (level : Nat) : Json → List Char
  | .string text => quoted text
  | .number value => Text.decimalChars value
  | .array [] => ['[', ']']
  | .array (item :: items) =>
    '[' :: newLine (level + 1) ++ item.chars (level + 1) ++ itemChars (level + 1) items
      ++ newLine level ++ [']']
  | .object [] => ['\x7b', '\x7d']
  | .object ((key, value) :: members) =>
    '\x7b' :: newLine (level + 1) ++ quoted key ++ ':' :: ' ' :: value.chars (level + 1)
      ++ memberChars (level + 1) members ++ newLine level ++ ['\x7d']

/-- The items after the first one. -/
def itemChars (level : Nat) : List Json → List Char
  | [] => []
  | item :: items => ',' :: newLine level ++ item.chars level ++ itemChars level items

/-- The members after the first one. -/
def memberChars (level : Nat) : List (String × Json) → List Char
  | [] => []
  | (key, value) :: members =>
    ',' :: newLine level ++ quoted key ++ ':' :: ' ' :: value.chars level
      ++ memberChars level members

end

def text (value : Json) : String := String.ofList (value.chars 0)

end Json

end TopicPlugin
